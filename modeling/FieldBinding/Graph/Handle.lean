import FieldBinding.Graph.Basic

/-!
# Valid handles

A handle is valid in a graph if a node has been stored under it.  A graph is closed if every value that one of
its nodes holds is valid; only closed graphs can come about, because a handle is given out together with its
node and nodes are never removed.
-/

namespace FieldBinding.Graph

/-- Whether the node of a handle is there.  Null and scalars have none. -/
def Has (g : Graph) : Value → Prop
  | .null | .scalar _ => True
  | .sequence _ id => id < g.sequences.size
  | .map id => id < g.maps.size
  | .object id => id < g.objects.size

instance (g : Graph) (v : Value) : Decidable (g.Has v) :=
  match v with
  | .null | .scalar _ => .isTrue trivial
  | .sequence _ id => inferInstanceAs (Decidable (id < g.sequences.size))
  | .map id => inferInstanceAs (Decidable (id < g.maps.size))
  | .object id => inferInstanceAs (Decidable (id < g.objects.size))

/-- The values that the node of a handle holds. -/
def children (g : Graph) : Value → List Value
  | .null | .scalar _ => []
  | .sequence _ id => (g.sequence id).items
  | .map id => (g.map id).entries.toList.map (·.2)
  | .object id => (g.object id).members.toList.map (·.2)

/-- Every value that a node holds is valid. -/
def Closed (g : Graph) : Prop :=
  ∀ v c, g.Has v → c ∈ g.children v → g.Has c

/-- The handles of every family can be gone through one by one. -/
theorem closed_iff (g : Graph) :
    g.Closed ↔
      (∀ id < g.sequences.size, ∀ c ∈ g.children (.sequence .list id), g.Has c) ∧
      (∀ id < g.maps.size, ∀ c ∈ g.children (.map id), g.Has c) ∧
      ∀ id < g.objects.size, ∀ c ∈ g.children (.object id), g.Has c := by
  constructor
  · exact fun h => ⟨fun _ hid c => h _ c hid, fun _ hid c => h _ c hid, fun _ hid c => h _ c hid⟩
  · rintro ⟨sequences, maps, objects⟩ v c hv hc
    cases v with
    | null => simp [children] at hc
    | scalar s => simp [children] at hc
    | sequence kind id => exact sequences id hv c hc
    | map id => exact maps id hv c hc
    | object id => exact objects id hv c hc

instance (g : Graph) : Decidable g.Closed :=
  decidable_of_iff _ g.closed_iff.symm

/-! ## Growth

A graph grows when nodes are added and none is changed. -/

/-- Every node is still there, as it was. -/
structure Extends (g g' : Graph) : Prop where
  sequences : ∀ id < g.sequences.size, id < g'.sequences.size ∧ g'.sequence id = g.sequence id
  maps : ∀ id < g.maps.size, id < g'.maps.size ∧ g'.map id = g.map id
  objects : ∀ id < g.objects.size, id < g'.objects.size ∧ g'.object id = g.object id

end FieldBinding.Graph
