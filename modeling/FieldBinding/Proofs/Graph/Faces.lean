import FieldBinding.Proofs.Graph.Ahead

/-!
# The face of a value

The content of a value is what it shows of itself, its `Graph.face`, and the contents in its slots.  Two documents
with equal faces in the same places have equal contents, whatever nodes they are made of, and so have two graphs that
are ahead of them by the same values.

Main results:

* `Graph.contentWithin_of_slots` — the content of a value is known from its face and the contents in its slots.
* `Graph.Ahead.contentWithin_of_faces` — equal faces and equal stores make equal contents.
-/

namespace FieldBinding

theorem Entries.map_eq_of_get? {α β γ : Type} {f : α → γ} {f' : β → γ} (m : Entries α) (m' : Entries β)
    (h : ∀ key, (m.get? key).map f = (m'.get? key).map f') : m.map f = m'.map f' :=
  ext_get? fun key => by rw [get?_map, get?_map, h]

/-- What is left at a route does not depend on the order of stores at different routes. -/
theorem Stores.at?_perm {es es' : Stores} (distinct : (es.map (·.1)).Nodup) (perm : es'.Perm es)
    (route : List String) : es.at? route = es'.at? route := by
  have distinct' : (es'.map (·.1)).Nodup := (perm.map _).nodup_iff.2 distinct
  refine Option.ext fun v => ?_
  constructor
  · intro h
    exact at?_of_mem distinct' (perm.mem_iff.2 (mem_of_at? h))
  · intro h
    exact at?_of_mem distinct (perm.mem_iff.1 (mem_of_at? h))

namespace Graph

variable {g g' f f' : Graph} {root root' v v' : Value} {es es' : Stores}

/-- The content of a value without what is in its slots. -/
def face (g : Graph) : Value → Tree
  | .null => .null
  | .scalar s => .scalar s
  | .sequence kind id => .sequence kind (g.sequence id).element []
  | .map id => .map (g.map id).element []
  | .object id => .object (g.object id).typeName []

theorem face_congr (kind : (f.node v).kind = (g.node v).kind) : f.face v = g.face v := by
  cases v with
  | null => rfl
  | scalar s => rfl
  | sequence k id => exact congrArg (Tree.sequence k · []) (NodeKind.sequence.inj kind)
  | map id => exact congrArg (Tree.map · []) (NodeKind.map.inj kind)
  | object id => exact congrArg (Tree.object · []) (NodeKind.object.inj kind)

/-- The face of a collection is known from its type. -/
theorem face_of_tagOf {type : TypeTag} (collection : type.isCollection) (h : g.tagOf v = type)
    (h' : g'.tagOf v' = type) : g.face v = g'.face v' := by
  subst h
  cases v <;> cases v' <;> simp_all [tagOf, face, TypeTag.isCollection]

theorem contentWithin_zero_of_face (face : f.face v = f'.face v') :
    f.contentWithin 0 v = f'.contentWithin 0 v' := by
  cases v <;> cases v' <;> simp_all [Graph.face, contentWithin]

/-- The content of a value is known from its face and the contents in its slots. -/
theorem contentWithin_of_slots {depth : Nat} (face : f.face v = f'.face v')
    (slots : ∀ label, (f.slot? v label).map (f.contentWithin depth) =
      (f'.slot? v' label).map (f'.contentWithin depth)) :
    f.contentWithin (depth + 1) v = f'.contentWithin (depth + 1) v' := by
  cases v with
  | null => cases v' <;> simp_all [Graph.face, contentWithin]
  | scalar s => cases v' <;> simp_all [Graph.face, contentWithin]
  | sequence kind id =>
    cases v' <;> simp only [Graph.face, Tree.sequence.injEq, reduceCtorEq] at face
    next kind' id' =>
    obtain ⟨rfl, element, -⟩ := face
    have items : (f.sequence id).items.map (f.contentWithin depth) =
        (f'.sequence id').items.map (f'.contentWithin depth) := by
      refine List.ext_getElem? fun i => ?_
      have slot := slots (Numeral.text i)
      rwa [slot?_sequence_text, slot?_sequence_text, ← List.getElem?_map, ← List.getElem?_map] at slot
    simp only [contentWithin, element, items]
  | map id =>
    cases v' <;> simp only [Graph.face, Tree.map.injEq, reduceCtorEq] at face
    next id' =>
    have entries := congrArg Entries.toList (Entries.map_eq_of_get? (f.map id).entries (f'.map id').entries slots)
    simp only [Entries.toList_map] at entries
    simp only [contentWithin, face.1, entries]
  | object id =>
    cases v' <;> simp only [Graph.face, Tree.object.injEq, reduceCtorEq] at face
    next id' =>
    have members := congrArg Entries.toList (Entries.map_eq_of_get? (f.object id).members (f'.object id').members slots)
    simp only [Entries.toList_map] at members
    simp only [contentWithin, face.1, members]

/-- Two documents have the same faces in the same places. -/
def SameFaces (g : Graph) (root : Value) (g' : Graph) (root' : Value) : Prop :=
  ∀ σ, (g.along root σ).map g.face = (g'.along root' σ).map g'.face

/-- Graphs that are ahead of such documents by the same values without parts have the same content. -/
theorem Ahead.contentWithin_of_faces (a : Ahead es root g f) (b : Ahead es' root' g' f')
    (stores : ∀ route, es.at? route = es'.at? route) (leaves : ∀ e ∈ es, e.2.address? = none)
    (faces : SameFaces g root g' root') (depth : Nat) :
    f.contentWithin depth root = f'.contentWithin depth root' := by
  suffices below : ∀ σ v v', g.along root σ = some v → g'.along root' σ = some v' →
      f.contentWithin depth v = f'.contentWithin depth v' from below [] root root' rfl rfl
  have face : ∀ σ v v', g.along root σ = some v → g'.along root' σ = some v' → f.face v = f'.face v' := by
    intro σ v v' h h'
    have same := faces σ
    rw [h, h', Option.map_some, Option.map_some, Option.some.injEq] at same
    rw [face_congr (a.kind σ v h), face_congr (b.kind σ v' h'), same]
  induction depth with
  | zero => exact fun σ v v' h h' => contentWithin_zero_of_face (face σ v v' h h')
  | succ depth ih =>
    intro σ v v' h h'
    refine contentWithin_of_slots (face σ v v' h h') fun label => ?_
    rw [a.slot σ v label h, b.slot σ v' label h', ← stores]
    cases stored : es.at? (σ ++ [label]) with
    | some u =>
      rw [Option.some_or, Option.some_or, Option.map_some, Option.map_some,
        contentWithin_leaf f f' depth (leaves _ (Stores.mem_of_at? stored))]
    | none =>
      rw [Option.none_or, Option.none_or]
      have place : g.along root (σ ++ [label]) = g.slot? v label := by rw [along_concat, h, Option.bind_some]
      have place' : g'.along root' (σ ++ [label]) = g'.slot? v' label := by
        rw [along_concat, h', Option.bind_some]
      have same := faces (σ ++ [label])
      rw [place, place'] at same
      generalize hu : g.slot? v label = u at place same ⊢
      generalize hu' : g'.slot? v' label = u' at place' same ⊢
      cases u <;> cases u'
      case none.none => rfl
      case some.some u u' => exact congrArg some (ih _ u u' place place')
      all_goals cases same

end Graph

end FieldBinding
