import FieldBinding.Graph.Entries
import FieldBinding.Graph.Store
import FieldBinding.Scalar

/-!
# Graphs of shared nodes

A `Value` is null, a scalar, or a handle to a node of a `Graph`.  Nodes are sequences, maps and objects; two
values with the same handle share the node, so a change through one of them is seen through the other.

`Graph.grow` makes an index addressable.  A list is filled up with nulls in place.  An array has a fixed
size, so a longer one is a new node, and whoever holds the old handle keeps the old elements.  The length that
an index takes is a machine word: for the largest index it comes out as none, and the elements are cut off
(`Graph.padded`).
-/

namespace FieldBinding

/-- What a place holds. -/
inductive Value where
  | null
  | scalar (s : Scalar)
  | sequence (kind : SequenceKind) (id : NodeId)
  | map (id : NodeId)
  | object (id : NodeId)
  deriving DecidableEq, Repr, Inhabited

/-- Elements in order, with their declared type. -/
structure Sequence where
  element : TypeTag
  items : List Value
  deriving Inhabited

/-- Entries by their keys, with the declared type of their values. -/
structure MapNode where
  element : TypeTag
  entries : Entries Value
  deriving Inhabited

/-- An object of a named type with its members. -/
structure Object where
  typeName : String
  members : Entries Value
  deriving Inhabited

/-- The nodes of all families. -/
structure Graph where
  sequences : Store Sequence
  maps : Store MapNode
  objects : Store Object
  deriving Inhabited

/-! ## Values -/

namespace Value

/-- Whether the value is null. -/
def isNull : Value → Bool
  | null => true
  | _ => false

theorem isNull_iff {v : Value} : v.isNull ↔ v = .null := by
  cases v <;> simp [isNull]

theorem isNull_eq_false_iff {v : Value} : v.isNull = false ↔ v ≠ .null := by
  rw [← Bool.not_eq_true, isNull_iff]

/-- Whether the value is a scalar. -/
def isScalar : Value → Bool
  | scalar _ => true
  | _ => false

/-- Whether the value is a sequence or a map. -/
def isCollection : Value → Bool
  | sequence _ _ | map _ => true
  | _ => false

theorem ne_null_of_isCollection {v : Value} (collection : v.isCollection) : v ≠ .null := by
  rintro rfl
  cases collection

/-- Whether the value is an object. -/
def isObject : Value → Bool
  | object _ => true
  | _ => false

/-- The scalar that the value is. -/
def scalar? : Value → Option Scalar
  | scalar s => some s
  | _ => none

/-- Whether two values are handles to the very same node. -/
def sameNode : Value → Value → Bool
  | sequence _ a, sequence _ b => a == b
  | map a, map b => a == b
  | object a, object b => a == b
  | _, _ => false

end Value

/-- The name that messages give to the values of a kind of scalars. -/
def ScalarKind.valueName : ScalarKind → String
  | primitive .boolean => "BOOLEAN"
  | primitive .char => "CHAR"
  | primitive (.integer .byte) => "BYTE"
  | primitive (.integer .short) => "SHORT"
  | primitive (.integer .int) => "INTEGER"
  | primitive (.integer .long) => "LONG"
  | primitive .float => "FLOAT"
  | primitive .double => "DOUBLE"
  | string => "STRING"
  | date => "DATE"
  | time => "TIME"
  | dateTime => "DATETIME"
  | localDateTime => "LOCAL_DATETIME"

/-- The name that messages give to a value. -/
def Value.kindName : Value → String
  | null => "NULL"
  | scalar s => s.kind.valueName
  | sequence .array _ => "ARRAY"
  | sequence .list _ => "LIST"
  | map _ => "MAP"
  | object _ => "OBJECT"

namespace Graph

/-- The graph without nodes. -/
def empty : Graph :=
  ⟨.empty, .empty, .empty⟩

/-- The number of nodes. -/
def size (g : Graph) : Nat :=
  g.sequences.size + g.maps.size + g.objects.size

/-- The sequence with a handle. -/
def sequence (g : Graph) (id : NodeId) : Sequence :=
  g.sequences.get id

/-- The map with a handle. -/
def map (g : Graph) (id : NodeId) : MapNode :=
  g.maps.get id

/-- The object with a handle. -/
def object (g : Graph) (id : NodeId) : Object :=
  g.objects.get id

/-- The type of a value.  A scalar says nothing about the place it came from, so its type admits null. -/
def tagOf (g : Graph) : Value → TypeTag
  | .null => .any
  | .scalar s => .scalar s.kind
  | .sequence kind id => .sequence kind (g.sequence id).element
  | .map id => .map (g.map id).element
  | .object id => .complex (g.object id).typeName

/-! ## New nodes -/

/-- A new sequence. -/
def newSequence (g : Graph) (kind : SequenceKind) (node : Sequence) : Value × Graph :=
  (.sequence kind g.sequences.next, { g with sequences := g.sequences.push node })

/-- A new map. -/
def newMap (g : Graph) (node : MapNode) : Value × Graph :=
  (.map g.maps.next, { g with maps := g.maps.push node })

/-- A new object. -/
def newObject (g : Graph) (node : Object) : Value × Graph :=
  (.object g.objects.next, { g with objects := g.objects.push node })

/-! ## Changes in place -/

/-- The graph with other elements in a sequence. -/
def setItems (g : Graph) (id : NodeId) (items : List Value) : Graph :=
  { g with sequences := g.sequences.set id { g.sequence id with items } }

/-- The graph with a value under a key of a map. -/
def setEntry (g : Graph) (id : NodeId) (key : String) (value : Value) : Graph :=
  let node := g.map id
  { g with maps := g.maps.set id { node with entries := node.entries.insert key value } }

/-- The graph with another object. -/
def setObject (g : Graph) (id : NodeId) (node : Object) : Graph :=
  { g with objects := g.objects.set id node }

/-- The graph with a value at an index of a sequence; none if the sequence is too short. -/
def setItem? (g : Graph) (id : NodeId) (index : Nat) (value : Value) : Option Graph :=
  let items := (g.sequence id).items
  if index < items.length then some (g.setItems id (items.set index value)) else none

-- Powers are those of the core library, whatever other instances are in sight.
attribute [local instance (2000)] instPowNat

/-- The number of elements that an index takes, as a word of 64 bits: the largest index takes none. -/
def room (index : Nat) : Nat :=
  (index + 1) % 2 ^ (64 : Nat)

/-- The elements, cut off at a length or filled up with nulls to it. -/
def resized (items : List Value) (length : Nat) : List Value :=
  items.take length ++ List.replicate (length - items.length) .null

/-- The elements of a sequence, with the room that an index takes if it is not one of theirs. -/
def padded (items : List Value) (index : Nat) : List Value :=
  if items.length ≤ index then resized items (room index) else items

/-- Makes an index of a sequence addressable; none for anything else.  A list grows in place, a longer array
is a new node. -/
def grow (g : Graph) (collection : Value) (index : Nat) : Option (Value × Graph) :=
  match collection with
  | .sequence .list id => some (collection, g.setItems id (padded (g.sequence id).items index))
  | .sequence .array id =>
    let node := g.sequence id
    if index < node.items.length then some (collection, g)
    else some (g.newSequence .array { node with items := padded node.items index })
  | _ => none

theorem room_of_lt {index : Nat} (small : index + 1 < 2 ^ (64 : Nat)) : room index = index + 1 :=
  Nat.mod_eq_of_lt small

theorem length_resized (items : List Value) (length : Nat) : (resized items length).length = length := by
  simp only [resized, List.length_append, List.length_take, List.length_replicate]
  omega

/-- Whether an index can be made addressable: it is already, or the length that it takes is a word. -/
def HasRoom (items : List Value) (index : Nat) : Prop :=
  items.length ≤ index → index + 1 < 2 ^ (64 : Nat)

instance (items : List Value) (index : Nat) : Decidable (HasRoom items index) :=
  inferInstanceAs (Decidable (_ → _))

theorem padded_of_lt {items : List Value} {index : Nat} (there : index < items.length) : padded items index = items :=
  if_neg (Nat.not_le_of_lt there)

theorem padded_of_hasRoom {items : List Value} {index : Nat} (room : HasRoom items index) :
    padded items index = items ++ List.replicate (index + 1 - items.length) .null := by
  unfold padded
  split
  · next short =>
    rw [room_of_lt (room short), resized, List.take_of_length_le (Nat.le_add_right_of_le short)]
  · next there =>
    rw [Nat.sub_eq_zero_of_le (Nat.lt_of_not_le there), List.replicate_zero, List.append_nil]

/-- An index is addressable in the padded elements if it has room, and only then. -/
theorem lt_length_padded_iff {items : List Value} {index : Nat} :
    index < (padded items index).length ↔ HasRoom items index := by
  unfold padded HasRoom
  split
  · next short =>
    rw [length_resized, room]
    simp only [short, true_implies]
    omega
  · next there => simp [there]; omega

theorem mem_padded {items : List Value} {index : Nat} {v : Value} (h : v ∈ padded items index) :
    v = .null ∨ v ∈ items := by
  unfold padded at h
  split at h
  · rcases List.mem_append.1 h with old | new
    · exact .inr (List.mem_of_mem_take old)
    · exact .inl (List.eq_of_mem_replicate new)
  · exact .inr h

end Graph

end FieldBinding
