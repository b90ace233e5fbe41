/-!
# Stores of nodes

A `Store` holds the nodes of one family.  A node is addressed by the number under which it was stored; nodes
are changed in place and never removed, so the address of a node stays valid.

The lemmas say what a store reads after each operation: an address shows the last node that was put there,
and no operation on one address is seen at another.
-/

namespace FieldBinding

/-- The address of a node in the store of its family. -/
abbrev NodeId := Nat

/-- Nodes of one family by their addresses. -/
structure Store (α : Type) where
  nodes : Array α

namespace Store

variable {α : Type}

/-- The store without nodes. -/
def empty : Store α :=
  ⟨#[]⟩

instance : Inhabited (Store α) := ⟨empty⟩

/-- The number of nodes. -/
def size (s : Store α) : Nat :=
  s.nodes.size

/-- The node at an address; an address that was never given out shows the default node. -/
def get [Inhabited α] (s : Store α) (id : NodeId) : α :=
  s.nodes[id]?.getD default

/-- The store with another node at an address. -/
def set (s : Store α) (id : NodeId) (node : α) : Store α :=
  ⟨s.nodes.setIfInBounds id node⟩

/-- The address of the next node to be added. -/
def next (s : Store α) : NodeId :=
  s.nodes.size

/-- The store with one more node, at the address `next`. -/
def push (s : Store α) (node : α) : Store α :=
  ⟨s.nodes.push node⟩

theorem get_set_self [Inhabited α] {s : Store α} {id : NodeId} (h : id < s.size) (node : α) :
    (s.set id node).get id = node := by
  have h' : id < s.nodes.size := h
  simp [get, set, h']

theorem get_set_ne [Inhabited α] (s : Store α) {id other : NodeId} (h : id ≠ other) (node : α) :
    (s.set id node).get other = s.get other := by
  simp [get, set, h]

theorem set_get_self [Inhabited α] {s : Store α} {id : NodeId} (h : id < s.size) :
    s.set id (s.get id) = s := by
  have h' : id < s.nodes.size := h
  simp [get, set, h', Array.setIfInBounds]

theorem get_push_next [Inhabited α] (s : Store α) (node : α) : (s.push node).get s.next = node := by
  simp [get, push, next]

theorem get_push_of_lt [Inhabited α] {s : Store α} {id : NodeId} (h : id < s.size) (node : α) :
    (s.push node).get id = s.get id := by
  have h' : id < s.nodes.size := h
  simp [get, push, Array.getElem?_push, Nat.ne_of_lt h']

theorem size_set (s : Store α) (id : NodeId) (node : α) : (s.set id node).size = s.size := by
  simp [size, set]

theorem size_push (s : Store α) (node : α) : (s.push node).size = s.size + 1 := by
  simp [size, push]

end Store

end FieldBinding
