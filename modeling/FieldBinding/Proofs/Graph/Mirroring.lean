import FieldBinding.Proofs.Graph.Change

/-!
# Changes on both sides of an embedding

A graph that has been through failures holds nodes that nobody asks for, so everything that is made later stands
at other addresses than it would without them.  `Graph.Mirrors` says that one graph is found inside another in
this way: the nodes of a base, which was there before both, have kept their addresses.  Unlike growth in step,
the relation survives changes in place.

Main results:

* `Store.Carried.set` — a node that is replaced on both sides keeps the embedding.
* `Graph.Mirrors.grow`, `Graph.Mirrors.storeElement` — collections grow and take values alike on both sides.
-/

namespace FieldBinding

/-- A node that is replaced on both sides keeps the embedding. -/
theorem Store.Carried.set {α : Type} [Inhabited α] {ρ : NodeId → NodeId} {f : α → α} {s t : Store α}
    (c : s.Carried ρ f t) {id : NodeId} (has : id < s.size) (a : α) :
    (s.set id a).Carried ρ f (t.set (ρ id) (f a)) := by
  constructor
  · intro other h
    rw [size_set] at h
    obtain ⟨bound, same⟩ := c.node other h
    refine ⟨by rwa [size_set], ?_⟩
    by_cases here : other = id
    · subst here
      rw [get_set_self bound, get_set_self has]
    · have apart : ρ id ≠ ρ other := fun eq => here (c.distinct id has other h eq).symm
      rw [get_set_ne _ apart, get_set_ne _ (Ne.symm here), same]
  · intro a ha b hb
    rw [size_set] at ha hb
    exact c.distinct a ha b hb

namespace Graph

variable {base : Graph} {ρ ρ₁ ρ' : Renaming} {g g₁ g' h h₁ h' : Graph}

/-! ## Embeddings -/

namespace Embeds

theorem setItems (e : g.Embeds ρ h) {id : NodeId} (has : id < g.sequences.size) (items : List Value) :
    (g.setItems id items).Embeds ρ (h.setItems (ρ.sequence id) (items.map (·.rename ρ))) where
  sequences := by
    have set := e.sequences.set has { g.sequence id with items }
    simp only [Graph.setItems, e.sequence_eq has]
    exact set
  maps := e.maps
  objects := e.objects

theorem setEntry (e : g.Embeds ρ h) {id : NodeId} (has : id < g.maps.size) (key : String) (v : Value) :
    (g.setEntry id key v).Embeds ρ (h.setEntry (ρ.map id) key (v.rename ρ)) where
  sequences := e.sequences
  maps := by
    have set := e.maps.set has { g.map id with entries := (g.map id).entries.insert key v }
    simp only [Graph.setEntry, e.map_eq has]
    rw [MapNode.rename, Entries.map_insert] at set
    exact set
  objects := e.objects

theorem setObject (e : g.Embeds ρ h) {id : NodeId} (has : id < g.objects.size) (node : Object) :
    (g.setObject id node).Embeds ρ (h.setObject (ρ.object id) (node.rename ρ)) where
  sequences := e.sequences
  maps := e.maps
  objects := e.objects.set has node

/-- Nodes may be added outside the embedded graph. -/
theorem widened (e : g.Embeds ρ h) (more : h.Extends h') : g.Embeds ρ h' where
  sequences := ⟨fun id hid => by
    obtain ⟨bound, same⟩ := e.sequences.node id hid
    exact ⟨(more.sequences _ bound).1, (more.sequences _ bound).2.trans same⟩, e.sequences.distinct⟩
  maps := ⟨fun id hid => by
    obtain ⟨bound, same⟩ := e.maps.node id hid
    exact ⟨(more.maps _ bound).1, (more.maps _ bound).2.trans same⟩, e.maps.distinct⟩
  objects := ⟨fun id hid => by
    obtain ⟨bound, same⟩ := e.objects.node id hid
    exact ⟨(more.objects _ bound).1, (more.objects _ bound).2.trans same⟩, e.objects.distinct⟩

/-- No two valid handles become one. -/
theorem rename_inj (e : g.Embeds ρ h) {v w : Value} (has_v : g.Has v) (has_w : g.Has w) :
    v.rename ρ = w.rename ρ ↔ v = w := by
  constructor
  · intro same
    cases v <;> cases w <;> simp only [Value.rename, Value.sequence.injEq, Value.map.injEq,
      Value.object.injEq, Value.scalar.injEq, reduceCtorEq] at same ⊢
    · exact same
    · exact ⟨same.1, e.sequences.distinct _ has_v _ has_w same.2⟩
    · exact e.maps.distinct _ has_v _ has_w same
    · exact e.objects.distinct _ has_v _ has_w same
  · rintro rfl
    rfl

theorem tagOf_eq (e : g.Embeds ρ h) {v : Value} (has : g.Has v) : h.tagOf (v.rename ρ) = g.tagOf v := by
  cases v with
  | null => rfl
  | scalar s => rfl
  | sequence kind id => simp only [Value.rename_sequence, tagOf, e.sequence_eq has, Sequence.rename]
  | map id => simp only [Value.rename_map, tagOf, e.map_eq has, MapNode.rename]
  | object id => simp only [Value.rename_object, tagOf, e.object_eq has, Object.rename]

end Embeds

/-- An object that is replaced by one with valid members leaves the graph closed. -/
theorem Closed.setObject (closed : g.Closed) {id : NodeId} {node : Object}
    (held : ∀ e ∈ node.members.toList, g.Has e.2) : (g.setObject id node).Closed := by
  have has : ∀ v, (g.setObject id node).Has v ↔ g.Has v := by
    intro v
    cases v <;> simp [Has, Graph.setObject, Store.size_set]
  intro v c has_v child
  rw [has] at has_v ⊢
  cases v with
  | object other =>
    by_cases same : id = other
    · subst same
      simp only [children, Graph.setObject, object, Store.get_set_self has_v] at child
      obtain ⟨e, he, rfl⟩ := List.mem_map.1 child
      exact held e he
    · simp only [children, Graph.setObject, object, Store.get_set_ne _ same] at child
      exact closed (.object other) c has_v child
  | _ => exact closed _ c has_v child

/-! ## Mirrors -/

/-- Valid handles stay valid, and their nodes stay where they are. -/
structure Onward (ρ : Renaming) (g : Graph) (ρ' : Renaming) (g' : Graph) : Prop where
  has : ∀ v, g.Has v → g'.Has v
  kept : ∀ v, g.Has v → v.rename ρ' = v.rename ρ

theorem Onward.refl (ρ : Renaming) (g : Graph) : Onward ρ g ρ g :=
  ⟨fun _ h => h, fun _ _ => rfl⟩

theorem Onward.trans (a : Onward ρ g ρ₁ g₁) (b : Onward ρ₁ g₁ ρ' g') : Onward ρ g ρ' g' :=
  ⟨fun v h => b.has v (a.has v h), fun v h => (b.kept v (a.has v h)).trans (a.kept v h)⟩

/-- A graph is found inside another, in which nodes may have been left behind that nobody asks for.  The nodes of
the base have their addresses in both. -/
structure Mirrors (base : Graph) (ρ : Renaming) (g h : Graph) : Prop where
  closed : g.Closed
  embeds : g.Embeds ρ h
  has : ∀ v, base.Has v → g.Has v
  fixed : ∀ v, base.Has v → v.rename ρ = v

namespace Mirrors

/-- A closed graph is its own mirror. -/
theorem refl (closed : base.Closed) : base.Mirrors .same base base :=
  ⟨closed, (Extends.refl base).embeds, fun _ h => h, fun v _ => v.rename_same⟩

/-- Nodes may be left behind. -/
theorem widened (m : base.Mirrors ρ g h) (more : h.Extends h') : base.Mirrors ρ g h' :=
  ⟨m.closed, m.embeds.widened more, m.has, m.fixed⟩

/-- Nodes that are added on both sides. -/
theorem inStep (m : base.Mirrors ρ g h) (step : InStep ρ g ρ' g' h') :
    base.Mirrors ρ' g' h' ∧ Onward ρ g ρ' g' := by
  refine ⟨⟨step.closed, step.embeds, fun v has => step.grown.has (m.has v has), fun v has => ?_⟩,
    fun v => step.grown.has, step.kept⟩
  rw [step.kept v (m.has v has), m.fixed v has]

/-- A node that is changed on both sides. -/
theorem changed (m : base.Mirrors ρ g h) (closed : g'.Closed) (embeds : g'.Embeds ρ h')
    (has : ∀ v, g'.Has v ↔ g.Has v) : base.Mirrors ρ g' h' ∧ Onward ρ g ρ g' :=
  ⟨⟨closed, embeds, fun v h => (has v).2 (m.has v h), m.fixed⟩, fun v h => (has v).2 h, fun _ _ => rfl⟩

theorem setEntry (m : base.Mirrors ρ g h) {id : NodeId} {v : Value} (has : g.Has (.map id))
    (has_v : g.Has v) (key : String) :
    base.Mirrors ρ (g.setEntry id key v) (h.setEntry (ρ.map id) key (v.rename ρ)) ∧
      Onward ρ g ρ (g.setEntry id key v) := by
  have change := setEntry_rewrites has key v
  refine m.changed (change.closed m.closed fun label c new => ?_) (m.embeds.setEntry has key v) change.has
  unfold onlyAt at new
  split at new
  · exact Option.some.inj new ▸ has_v
  · cases new

/-! ## Collections -/

/-- Collections are made large enough alike. -/
theorem grow (m : base.Mirrors ρ g h) {c : Value} (has : g.Has c) (n : Nat) :
    (g.grow c n = none ∧ h.grow (c.rename ρ) n = none) ∨
    ∃ ρ' c' g' h', g.grow c n = some (c', g') ∧ h.grow (c.rename ρ) n = some (c'.rename ρ', h') ∧
      base.Mirrors ρ' g' h' ∧ Onward ρ g ρ' g' ∧ g'.Has c' := by
  have padded_rename : ∀ items : List Value, padded (items.map (·.rename ρ)) n =
      (padded items n).map (·.rename ρ) := by
    intro items
    unfold padded
    rw [List.length_map]
    split <;> simp [resized, Value.rename]
  cases c with
  | sequence kind id =>
    refine .inr ?_
    cases kind with
    | list =>
      have change := Change.of_padded m.closed has n
      obtain ⟨mirrors, onward⟩ := m.changed change.closed (m.embeds.setItems has _) (g.setItems_has id _)
      refine ⟨ρ, _, _, _, rfl, ?_, mirrors, onward, change.has _ has⟩
      simp only [Value.rename_sequence, Graph.grow, m.embeds.sequence_eq has, Sequence.rename,
        padded_rename]
    | array =>
      by_cases enough : n < (g.sequence id).items.length
      · refine ⟨ρ, .sequence .array id, g, h, if_pos enough, ?_, m, .refl ρ g, has⟩
        simp only [Value.rename_sequence, Graph.grow, m.embeds.sequence_eq has, Sequence.rename,
          List.length_map, enough, if_true]
      · have held : ∀ d ∈ padded (g.sequence id).items n, g.Has d := by
          intro d hd
          rcases mem_padded hd with rfl | old
          · trivial
          · exact m.closed _ d has old
        obtain ⟨ρ', step, same⟩ := InStep.newSequence m.closed m.embeds .array
          { g.sequence id with items := padded (g.sequence id).items n } held
        obtain ⟨mirrors, onward⟩ := m.inStep step
        refine ⟨ρ', (g.newSequence .array _).1, _, _, if_neg enough, ?_, mirrors, onward,
          has_newSequence g .array _⟩
        refine Eq.trans ?_ (congrArg (fun c => some (c, _)) same)
        simp only [Value.rename_sequence, Graph.grow, m.embeds.sequence_eq has, Sequence.rename,
          List.length_map, enough, if_false, padded_rename]
  | _ => exact .inl ⟨rfl, rfl⟩

/-- Collections take values alike. -/
theorem storeElement (m : base.Mirrors ρ g h) {c v : Value} (has : g.Has c) (has_v : g.Has v)
    (path : Path) (slot : Slot) :
    (∃ e e', g.storeElement path c slot v = .error e ∧
      h.storeElement path (c.rename ρ) slot (v.rename ρ) = .error e') ∨
    ∃ g' h', g.storeElement path c slot v = .ok g' ∧
      h.storeElement path (c.rename ρ) slot (v.rename ρ) = .ok h' ∧ base.Mirrors ρ g' h' ∧
      Onward ρ g ρ g' := by
  cases c with
  | sequence kind id =>
    cases slot with
    | key key => exact .inl ⟨_, _, rfl, rfl⟩
    | index n =>
      simp only [Value.rename_sequence, Graph.storeElement, setItem?, m.embeds.sequence_eq has,
        Sequence.rename, List.length_map]
      by_cases bound : n < (g.sequence id).items.length
      · have set : g.setItem? id n v = some (g.setItems id ((g.sequence id).items.set n v)) :=
          if_pos bound
        have change : g.Rewrites _ (.sequence kind id) _ := setItem?_rewrites has set
        have closed := change.closed m.closed fun label c new => by
          unfold onlyAt at new
          split at new
          · exact Option.some.inj new ▸ has_v
          · cases new
        obtain ⟨mirrors, onward⟩ := m.changed closed (m.embeds.setItems has _) change.has
        simp only [bound, if_true, ← List.map_set]
        exact .inr ⟨_, _, rfl, rfl, mirrors, onward⟩
      · simp only [bound, if_false]
        exact .inl ⟨_, _, rfl, rfl⟩
  | map id =>
    refine .inr ?_
    cases slot with
    | key key => exact ⟨_, _, rfl, rfl, m.setEntry has has_v key⟩
    | index n => exact ⟨_, _, rfl, rfl, m.setEntry has has_v (Numeral.text n)⟩
  | _ => exact .inl ⟨_, _, rfl, rfl⟩

end Mirrors

end Graph

end FieldBinding
