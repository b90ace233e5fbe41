import FieldBinding.Proofs.Graph.Embedding
import Mathlib.Logic.Function.Basic

/-!
# New nodes on both sides of an embedding

Main results:

* `Graph.plant_extends` — planting a content only adds nodes.
* `Graph.plant_inStep` — planting a content on both sides of an embedding extends the embedding.
* `Graph.InStep.newSequence`, `Graph.InStep.newMap`, `Graph.InStep.newObject` — so does a single new node.

New addresses come from here: the renaming is extended by sending the next address of one graph to the next
address of the other, and all earlier addresses stay where they were.
-/

namespace FieldBinding

/-! ## Stores -/

namespace Store.Carried

variable {α : Type} [Inhabited α] {ρ : NodeId → NodeId} {f f' : α → α} {s t : Store α}

/-- Only what the function does to the nodes that are there counts. -/
theorem congr (c : s.Carried ρ f t) (h : ∀ id < s.size, f' (s.get id) = f (s.get id)) :
    s.Carried ρ f' t :=
  ⟨fun id hid => ⟨(c.node id hid).1, (c.node id hid).2.trans (h id hid).symm⟩, c.distinct⟩

/-- Only where the nodes that are there go counts. -/
theorem congr_address {ρ' : NodeId → NodeId} (c : s.Carried ρ f t)
    (h : ∀ id < s.size, ρ' id = ρ id) : s.Carried ρ' f t := by
  refine ⟨fun id hid => ?_, fun a ha b hb hab => ?_⟩
  · rw [h id hid]
    exact c.node id hid
  · rw [h a ha, h b hb] at hab
    exact c.distinct a ha b hb hab

/-- A node that is added on both sides extends the embedding by its address. -/
theorem push (c : s.Carried ρ f t) (a : α) :
    (s.push a).Carried (Function.update ρ s.next t.next) f (t.push (f a)) := by
  have old : ∀ id < s.size, Function.update ρ s.next t.next id = ρ id := fun id hid =>
    Function.update_of_ne (Nat.ne_of_lt hid) _ _
  have new : ∀ id, id < (s.push a).size → id < s.size ∨ id = s.next := by
    intro id hid
    rw [size_push] at hid
    exact Nat.lt_or_eq_of_le (Nat.le_of_lt_succ hid)
  refine ⟨fun id hid => ?_, fun i hi j hj hij => ?_⟩
  · rcases new id hid with hid | rfl
    · obtain ⟨hlt, heq⟩ := c.node id hid
      rw [old id hid, size_push, get_push_of_lt hlt, get_push_of_lt hid]
      exact ⟨Nat.lt_succ_of_lt hlt, heq⟩
    · rw [Function.update_self, size_push, get_push_next, get_push_next]
      exact ⟨Nat.lt_succ_self _, rfl⟩
  · rcases new i hi with hi | rfl <;> rcases new j hj with hj | rfl
    · rw [old i hi, old j hj] at hij
      exact c.distinct i hi j hj hij
    · rw [old i hi, Function.update_self] at hij
      exact absurd hij (Nat.ne_of_lt (c.node i hi).1)
    · rw [Function.update_self, old j hj] at hij
      exact absurd hij.symm (Nat.ne_of_lt (c.node j hj).1)
    · rfl

end Store.Carried

/-! ## Single nodes -/

namespace Entries

/-- The values of a map are those of the list it is made from. -/
theorem mem_ofList {α : Type} {entries : List (String × α)} {e : String × α}
    (h : e ∈ (ofList entries).toList) : e ∈ entries := by
  have go : ∀ (entries : List (String × α)) (m : Entries α),
      e ∈ (entries.foldl (fun m e => m.insert e.1 e.2) m).toList → e ∈ m.toList ∨ e ∈ entries := by
    intro entries
    induction entries with
    | nil => exact fun m h => .inl h
    | cons entry rest ih =>
      intro m h
      rcases ih _ h with h | h
      · rcases mem_insertList h with h | h
        · exact .inr (by simp [h])
        · exact .inl h
      · exact .inr (List.mem_cons_of_mem _ h)
  rcases go entries empty h with h | h
  · simp [empty] at h
  · exact h

end Entries

namespace Graph

/-- Two graphs grow in step: the second still holds the first at new addresses, which are the old ones for
what was there before. -/
structure InStep (ρ : Renaming) (g : Graph) (ρ' : Renaming) (g' h' : Graph) : Prop where
  closed : g'.Closed
  embeds : g'.Embeds ρ' h'
  grown : g.Extends g'
  kept : ∀ v, g.Has v → v.rename ρ' = v.rename ρ

namespace InStep

variable {ρ ρ₁ ρ₂ : Renaming} {g g₁ g₂ h h₁ h₂ : Graph}

theorem refl (closed : g.Closed) (embeds : g.Embeds ρ h) : InStep ρ g ρ g h :=
  ⟨closed, embeds, .refl g, fun _ _ => rfl⟩

theorem trans (a : InStep ρ g ρ₁ g₁ h₁) (b : InStep ρ₁ g₁ ρ₂ g₂ h₂) : InStep ρ g ρ₂ g₂ h₂ :=
  ⟨b.closed, b.embeds, a.grown.trans b.grown,
    fun v hv => (b.kept v (a.grown.has hv)).trans (a.kept v hv)⟩

end InStep

/-- A graph with one more node is closed if the values of the node were valid. -/
theorem Closed.of_new {g g' : Graph} {v : Value} (closed : g.Closed) (grown : g.Extends g')
    (new : ∀ w, g'.Has w → g.Has w ∨ g'.children w = g'.children v)
    (held : ∀ c ∈ g'.children v, g.Has c) : g'.Closed := by
  intro w c hw hc
  rcases new w hw with hw | hw
  · rw [grown.children_eq hw] at hc
    exact grown.has (closed w c hw hc)
  · rw [hw] at hc
    exact grown.has (held c hc)

section NewNode

variable {ρ : Renaming} {g h : Graph}

theorem newSequence_extends (g : Graph) (kind : SequenceKind) (node : Sequence) :
    g.Extends (g.newSequence kind node).2 :=
  ⟨fun _ hid => ⟨by simpa [newSequence, Store.size_push] using Nat.lt_succ_of_lt hid,
      Store.get_push_of_lt hid node⟩,
    fun _ hid => ⟨hid, rfl⟩, fun _ hid => ⟨hid, rfl⟩⟩

theorem newMap_extends (g : Graph) (node : MapNode) : g.Extends (g.newMap node).2 :=
  ⟨fun _ hid => ⟨hid, rfl⟩,
    fun _ hid => ⟨by simpa [newMap, Store.size_push] using Nat.lt_succ_of_lt hid,
      Store.get_push_of_lt hid node⟩,
    fun _ hid => ⟨hid, rfl⟩⟩

theorem newObject_extends (g : Graph) (node : Object) : g.Extends (g.newObject node).2 :=
  ⟨fun _ hid => ⟨hid, rfl⟩, fun _ hid => ⟨hid, rfl⟩,
    fun _ hid => ⟨by simpa [newObject, Store.size_push] using Nat.lt_succ_of_lt hid,
      Store.get_push_of_lt hid node⟩⟩

theorem has_newSequence (g : Graph) (kind : SequenceKind) (node : Sequence) :
    (g.newSequence kind node).2.Has (g.newSequence kind node).1 := by
  show g.sequences.next < (g.sequences.push node).size
  rw [Store.size_push]
  exact Nat.lt_succ_self _

theorem has_newMap (g : Graph) (node : MapNode) : (g.newMap node).2.Has (g.newMap node).1 := by
  show g.maps.next < (g.maps.push node).size
  rw [Store.size_push]
  exact Nat.lt_succ_self _

theorem has_newObject (g : Graph) (node : Object) :
    (g.newObject node).2.Has (g.newObject node).1 := by
  show g.objects.next < (g.objects.push node).size
  rw [Store.size_push]
  exact Nat.lt_succ_self _

theorem newSequence_closed (closed : g.Closed) (kind : SequenceKind) (node : Sequence)
    (held : ∀ c ∈ node.items, g.Has c) : (g.newSequence kind node).2.Closed := by
  refine closed.of_new (newSequence_extends g kind node) (v := (g.newSequence kind node).1) ?_ ?_
  · intro w hw
    cases w with
    | sequence kind' id =>
      rcases Nat.lt_or_eq_of_le (Nat.le_of_lt_succ
        (by simpa [newSequence, Has, Store.size_push] using hw)) with hid | rfl
      · exact .inl hid
      · exact .inr rfl
    | _ => exact .inl hw
  · intro c hc
    refine held c ?_
    simpa [newSequence, children, sequence, Store.get_push_next] using hc

theorem newMap_closed (closed : g.Closed) {node : MapNode}
    (held : ∀ e ∈ node.entries.toList, g.Has e.2) : (g.newMap node).2.Closed := by
  refine closed.of_new (newMap_extends g node) (v := (g.newMap node).1) ?_ ?_
  · intro w hw
    cases w with
    | map id =>
      rcases Nat.lt_or_eq_of_le (Nat.le_of_lt_succ
        (by simpa [newMap, Has, Store.size_push] using hw)) with hid | rfl
      · exact .inl hid
      · exact .inr rfl
    | _ => exact .inl hw
  · intro c hc
    simp only [newMap, children, map, Store.get_push_next] at hc
    obtain ⟨e, he, rfl⟩ := List.mem_map.1 hc
    exact held e he

theorem newObject_closed (closed : g.Closed) {node : Object}
    (held : ∀ e ∈ node.members.toList, g.Has e.2) : (g.newObject node).2.Closed := by
  refine closed.of_new (newObject_extends g node) (v := (g.newObject node).1) ?_ ?_
  · intro w hw
    cases w with
    | object id =>
      rcases Nat.lt_or_eq_of_le (Nat.le_of_lt_succ
        (by simpa [newObject, Has, Store.size_push] using hw)) with hid | rfl
      · exact .inl hid
      · exact .inr rfl
    | _ => exact .inl hw
  · intro c hc
    simp only [newObject, children, object, Store.get_push_next] at hc
    obtain ⟨e, he, rfl⟩ := List.mem_map.1 hc
    exact held e he

end NewNode

/-! ## Growth in step -/

namespace InStep

variable {ρ : Renaming} {g h : Graph}

/-! Renamings that agree on valid handles change the nodes of a closed graph alike. -/

section Kept

variable {ρ' : Renaming} (kept : ∀ v, g.Has v → v.rename ρ' = v.rename ρ)

include kept

theorem sequence_rename_congr {node : Sequence} (held : ∀ c ∈ node.items, g.Has c) :
    node.rename ρ' = node.rename ρ :=
  congrArg (Sequence.mk _) (List.map_congr_left fun c hc => kept c (held c hc))

theorem entries_rename_congr {m : Entries Value} (held : ∀ e ∈ m.toList, g.Has e.2) :
    m.map (·.rename ρ') = m.map (·.rename ρ) := by
  simp only [Entries.map, Entries.mk.injEq]
  exact List.map_congr_left fun e he => by rw [kept e.2 (held e he)]

theorem map_rename_congr {node : MapNode} (held : ∀ e ∈ node.entries.toList, g.Has e.2) :
    node.rename ρ' = node.rename ρ :=
  congrArg (MapNode.mk _) (entries_rename_congr kept held)

theorem object_rename_congr {node : Object} (held : ∀ e ∈ node.members.toList, g.Has e.2) :
    node.rename ρ' = node.rename ρ :=
  congrArg (Object.mk _) (entries_rename_congr kept held)

theorem sequences_carried (closed : g.Closed) (embeds : g.Embeds ρ h) :
    g.sequences.Carried ρ.sequence (Sequence.rename ρ') h.sequences :=
  embeds.sequences.congr fun id hid =>
    sequence_rename_congr kept fun c hc => closed (.sequence .list id) c hid hc

theorem maps_carried (closed : g.Closed) (embeds : g.Embeds ρ h) :
    g.maps.Carried ρ.map (MapNode.rename ρ') h.maps :=
  embeds.maps.congr fun id hid =>
    map_rename_congr kept fun e he => closed (.map id) e.2 hid (List.mem_map_of_mem he)

theorem objects_carried (closed : g.Closed) (embeds : g.Embeds ρ h) :
    g.objects.Carried ρ.object (Object.rename ρ') h.objects :=
  embeds.objects.congr fun id hid =>
    object_rename_congr kept fun e he => closed (.object id) e.2 hid (List.mem_map_of_mem he)

/-- Only where valid handles go counts. -/
theorem embeds_congr (closed : g.Closed) (embeds : g.Embeds ρ h) : g.Embeds ρ' h where
  sequences := (sequences_carried kept closed embeds).congr_address fun id hid =>
    (Value.sequence.inj (kept (.sequence .list id) hid)).2
  maps := (maps_carried kept closed embeds).congr_address fun id hid =>
    Value.map.inj (kept (.map id) hid)
  objects := (objects_carried kept closed embeds).congr_address fun id hid =>
    Value.object.inj (kept (.object id) hid)

end Kept

theorem newSequence (closed : g.Closed) (embeds : g.Embeds ρ h) (kind : SequenceKind)
    (node : Sequence) (held : ∀ c ∈ node.items, g.Has c) :
    ∃ ρ', InStep ρ g ρ' (g.newSequence kind node).2 (h.newSequence kind (node.rename ρ)).2 ∧
      (h.newSequence kind (node.rename ρ)).1 = (g.newSequence kind node).1.rename ρ' := by
  let ρ' := { ρ with sequence := Function.update ρ.sequence g.sequences.next h.sequences.next }
  have new : ρ'.sequence g.sequences.next = h.sequences.next := Function.update_self _ _ _
  have kept : ∀ v, g.Has v → v.rename ρ' = v.rename ρ := by
    intro v hv
    cases v with
    | sequence kind id =>
      exact congrArg (Value.sequence kind) (Function.update_of_ne (Nat.ne_of_lt hv) _ _)
    | _ => rfl
  have sequences := (sequences_carried kept closed embeds).push node
  rw [sequence_rename_congr kept held] at sequences
  have maps := maps_carried kept closed embeds
  have objects := objects_carried kept closed embeds
  exact ⟨ρ', ⟨newSequence_closed closed kind node held, ⟨sequences, maps, objects⟩,
    newSequence_extends g kind node, kept⟩, congrArg (Value.sequence kind) new.symm⟩

theorem newMap (closed : g.Closed) (embeds : g.Embeds ρ h) (node : MapNode)
    (held : ∀ e ∈ node.entries.toList, g.Has e.2) :
    ∃ ρ', InStep ρ g ρ' (g.newMap node).2 (h.newMap (node.rename ρ)).2 ∧
      (h.newMap (node.rename ρ)).1 = (g.newMap node).1.rename ρ' := by
  let ρ' := { ρ with map := Function.update ρ.map g.maps.next h.maps.next }
  have new : ρ'.map g.maps.next = h.maps.next := Function.update_self _ _ _
  have kept : ∀ v, g.Has v → v.rename ρ' = v.rename ρ := by
    intro v hv
    cases v with
    | map id => exact congrArg Value.map (Function.update_of_ne (Nat.ne_of_lt hv) _ _)
    | _ => rfl
  have sequences := sequences_carried kept closed embeds
  have maps := (maps_carried kept closed embeds).push node
  rw [map_rename_congr kept held] at maps
  have objects := objects_carried kept closed embeds
  exact ⟨ρ', ⟨newMap_closed closed held, ⟨sequences, maps, objects⟩, newMap_extends g node, kept⟩,
    congrArg Value.map new.symm⟩

theorem newObject (closed : g.Closed) (embeds : g.Embeds ρ h) (node : Object)
    (held : ∀ e ∈ node.members.toList, g.Has e.2) :
    ∃ ρ', InStep ρ g ρ' (g.newObject node).2 (h.newObject (node.rename ρ)).2 ∧
      (h.newObject (node.rename ρ)).1 = (g.newObject node).1.rename ρ' := by
  let ρ' := { ρ with object := Function.update ρ.object g.objects.next h.objects.next }
  have new : ρ'.object g.objects.next = h.objects.next := Function.update_self _ _ _
  have kept : ∀ v, g.Has v → v.rename ρ' = v.rename ρ := by
    intro v hv
    cases v with
    | object id => exact congrArg Value.object (Function.update_of_ne (Nat.ne_of_lt hv) _ _)
    | _ => rfl
  have sequences := sequences_carried kept closed embeds
  have maps := maps_carried kept closed embeds
  have objects := (objects_carried kept closed embeds).push node
  rw [object_rename_congr kept held] at objects
  exact ⟨ρ', ⟨newObject_closed closed held, ⟨sequences, maps, objects⟩, newObject_extends g node,
    kept⟩, congrArg Value.object new.symm⟩

end InStep

/-! ## Planting -/

mutual

/-- Planting a content only adds nodes. -/
theorem plant_extends (g : Graph) : (t : Tree) → g.Extends (g.plant t).2
  | .null | .scalar _ => .refl g
  | .sequence kind _ items => (plantAll_extends g items).trans (newSequence_extends _ kind _)
  | .map _ entries => (plantEntries_extends g entries).trans (newMap_extends _ _)
  | .object _ members => (plantEntries_extends g members).trans (newObject_extends _ _)

theorem plantAll_extends (g : Graph) : (ts : List Tree) → g.Extends (g.plantAll ts).2
  | [] => .refl g
  | t :: rest => (plant_extends g t).trans (plantAll_extends _ rest)

theorem plantEntries_extends (g : Graph) :
    (entries : List (String × Tree)) → g.Extends (g.plantEntries entries).2
  | [] => .refl g
  | (_, t) :: rest => (plant_extends g t).trans (plantEntries_extends _ rest)

end

/-- What planting on both sides of an embedding yields for a content: growth in step, and one value at
corresponding addresses. -/
def PlantsInStep (t : Tree) : Prop :=
  ∀ (ρ : Renaming) (g h : Graph), g.Closed → g.Embeds ρ h →
    ∃ ρ', InStep ρ g ρ' (g.plant t).2 (h.plant t).2 ∧ (g.plant t).2.Has (g.plant t).1 ∧
      (h.plant t).1 = (g.plant t).1.rename ρ'

theorem plantAll_inStep (ts : List Tree) (each : ∀ t ∈ ts, PlantsInStep t) {ρ : Renaming}
    {g h : Graph} (closed : g.Closed) (embeds : g.Embeds ρ h) :
    ∃ ρ', InStep ρ g ρ' (g.plantAll ts).2 (h.plantAll ts).2 ∧
      (∀ c ∈ (g.plantAll ts).1, (g.plantAll ts).2.Has c) ∧
      (h.plantAll ts).1 = (g.plantAll ts).1.map (·.rename ρ') := by
  induction ts generalizing ρ g h with
  | nil => exact ⟨ρ, .refl closed embeds, by simp [plantAll], rfl⟩
  | cons t rest ih =>
    obtain ⟨ρ₁, first, has, same⟩ := each t List.mem_cons_self ρ g h closed embeds
    obtain ⟨ρ₂, others, hasAll, sameAll⟩ :=
      ih (fun t ht => each t (List.mem_cons_of_mem _ ht)) first.closed first.embeds
    refine ⟨ρ₂, first.trans others, ?_, ?_⟩
    · intro c hc
      rcases List.mem_cons.1 hc with rfl | hc
      · exact others.grown.has has
      · exact hasAll c hc
    · simp only [plantAll, List.map_cons, sameAll, same, others.kept _ has]

theorem plantEntries_inStep (ts : List (String × Tree)) (each : ∀ e ∈ ts, PlantsInStep e.2)
    {ρ : Renaming} {g h : Graph} (closed : g.Closed) (embeds : g.Embeds ρ h) :
    ∃ ρ', InStep ρ g ρ' (g.plantEntries ts).2 (h.plantEntries ts).2 ∧
      (∀ e ∈ (g.plantEntries ts).1, (g.plantEntries ts).2.Has e.2) ∧
      (h.plantEntries ts).1 = (g.plantEntries ts).1.map fun e => (e.1, e.2.rename ρ') := by
  induction ts generalizing ρ g h with
  | nil => exact ⟨ρ, .refl closed embeds, by simp [plantEntries], rfl⟩
  | cons entry rest ih =>
    obtain ⟨ρ₁, first, has, same⟩ := each entry List.mem_cons_self ρ g h closed embeds
    obtain ⟨ρ₂, others, hasAll, sameAll⟩ :=
      ih (fun e he => each e (List.mem_cons_of_mem _ he)) first.closed first.embeds
    refine ⟨ρ₂, first.trans others, ?_, ?_⟩
    · intro e he
      rcases List.mem_cons.1 he with rfl | he
      · exact others.grown.has has
      · exact hasAll e he
    · simp only [plantEntries, List.map_cons, sameAll, same, others.kept _ has]

theorem map_ofList_rename (ρ : Renaming) (entries : List (String × Value)) :
    (Entries.ofList entries).map (·.rename ρ) =
      .ofList (entries.map fun e => (e.1, e.2.rename ρ)) :=
  Entries.map_ofList _ entries

theorem sizeOf_snd_lt {entries : List (String × Tree)} {e : String × Tree} (he : e ∈ entries) :
    sizeOf e.2 < sizeOf entries := by
  obtain ⟨key, t⟩ := e
  have := List.sizeOf_lt_of_mem he
  simp at this ⊢
  omega

/-- Planting a content on both sides of an embedding extends the embedding. -/
theorem plant_inStep (t : Tree) : PlantsInStep t := by
  intro ρ g h closed embeds
  match t with
  | .null => exact ⟨ρ, .refl closed embeds, trivial, rfl⟩
  | .scalar s => exact ⟨ρ, .refl closed embeds, trivial, rfl⟩
  | .sequence kind element items =>
    obtain ⟨ρ₁, below, held, same⟩ :=
      plantAll_inStep items (fun t ht => plant_inStep t) closed embeds
    obtain ⟨ρ₂, top, sameTop⟩ :=
      InStep.newSequence below.closed below.embeds kind ⟨element, _⟩ held
    rw [Sequence.rename, ← same] at top sameTop
    exact ⟨ρ₂, below.trans top, has_newSequence _ _ _, sameTop⟩
  | .map element entries =>
    obtain ⟨ρ₁, below, held, same⟩ :=
      plantEntries_inStep entries (fun e he => plant_inStep e.2) closed embeds
    obtain ⟨ρ₂, top, sameTop⟩ := InStep.newMap below.closed below.embeds
      ⟨element, .ofList _⟩ fun e he => held e (Entries.mem_ofList he)
    rw [MapNode.rename, map_ofList_rename, ← same] at top sameTop
    exact ⟨ρ₂, below.trans top, has_newMap _ _, sameTop⟩
  | .object typeName members =>
    obtain ⟨ρ₁, below, held, same⟩ :=
      plantEntries_inStep members (fun e he => plant_inStep e.2) closed embeds
    obtain ⟨ρ₂, top, sameTop⟩ := InStep.newObject below.closed below.embeds
      ⟨typeName, .ofList _⟩ fun e he => held e (Entries.mem_ofList he)
    rw [Object.rename, map_ofList_rename, ← same] at top sameTop
    exact ⟨ρ₂, below.trans top, has_newObject _ _, sameTop⟩
termination_by sizeOf t
decreasing_by
  · have := List.sizeOf_lt_of_mem ht
    simp
    omega
  · have := sizeOf_snd_lt he
    simp
    omega
  · have := sizeOf_snd_lt he
    simp
    omega

end Graph

end FieldBinding
