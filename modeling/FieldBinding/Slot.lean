/-!
# Places in collections

A collection is a sequence of elements or a map of entries.  A `Slot` addresses one element by its index or
one entry by its key.
-/

namespace FieldBinding

/-- The two kinds of sequence.  A list grows in place; an array has a fixed size and is replaced. -/
inductive SequenceKind where
  | array
  | list
  deriving DecidableEq, Repr

/-- One place inside a collection. -/
inductive Slot where
  | index (n : Nat)
  | key (text : String)
  deriving DecidableEq, Repr

end FieldBinding
