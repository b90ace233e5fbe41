import FieldBinding.Graph.Handle

/-!
# Graphs at other addresses

A `Renaming` gives the nodes of each family new addresses.  `Graph.Embeds` says that one graph is found inside
another: every node of the first stands in the second at its new address, holds the same values at their new
addresses, and no two nodes have become one.  Whatever can be seen of a value without looking at addresses is
the same on both sides of an embedding.
-/

namespace FieldBinding

/-- New addresses for the nodes of each family. -/
structure Renaming where
  sequence : NodeId → NodeId
  map : NodeId → NodeId
  object : NodeId → NodeId

/-- The renaming that changes no address. -/
def Renaming.same : Renaming :=
  ⟨fun id => id, fun id => id, fun id => id⟩

/-- The value at its new address. -/
def Value.rename (ρ : Renaming) : Value → Value
  | .null => .null
  | .scalar s => .scalar s
  | .sequence kind id => .sequence kind (ρ.sequence id)
  | .map id => .map (ρ.map id)
  | .object id => .object (ρ.object id)

/-- The sequence with its elements at their new addresses. -/
def Sequence.rename (ρ : Renaming) (node : Sequence) : Sequence :=
  ⟨node.element, node.items.map (·.rename ρ)⟩

/-- The map with its values at their new addresses. -/
def MapNode.rename (ρ : Renaming) (node : MapNode) : MapNode :=
  ⟨node.element, node.entries.map (·.rename ρ)⟩

/-- The object with its members at their new addresses. -/
def Object.rename (ρ : Renaming) (node : Object) : Object :=
  ⟨node.typeName, node.members.map (·.rename ρ)⟩

/-- One store is found inside another: a node stands at its new address, changed by a function, and different
addresses stay different. -/
structure Store.Carried {α : Type} [Inhabited α] (ρ : NodeId → NodeId) (f : α → α) (s t : Store α) :
    Prop where
  node : ∀ id < s.size, ρ id < t.size ∧ t.get (ρ id) = f (s.get id)
  distinct : ∀ a < s.size, ∀ b < s.size, ρ a = ρ b → a = b

/-- One graph is found inside another at new addresses. -/
structure Graph.Embeds (ρ : Renaming) (g h : Graph) : Prop where
  sequences : g.sequences.Carried ρ.sequence (Sequence.rename ρ) h.sequences
  maps : g.maps.Carried ρ.map (MapNode.rename ρ) h.maps
  objects : g.objects.Carried ρ.object (Object.rename ρ) h.objects

end FieldBinding
