import FieldBinding.Graph.Basic

/-!
# Equality of values

Two values are equal if they are handles to the same node or have the same content.  Scalars are compared
as values, so a number that is not a number differs from itself; a node that holds one is still equal to
itself, because the handles are compared first.
-/

namespace FieldBinding

/-- Whether two lists have the same length and agree at every position. -/
def agreeAll {α β : Type} (agree : α → β → Bool) : List α → List β → Bool
  | [], [] => true
  | a :: as, b :: bs => agree a b && agreeAll agree as bs
  | _, _ => false

/-- Whether two lists of entries have the same keys in the same order and values that agree. -/
def agreeEntries {α β : Type} (agree : α → β → Bool) (as : List (String × α))
    (bs : List (String × β)) : Bool :=
  agreeAll (fun a b => a.1 == b.1 && agree a.2 b.2) as bs

namespace Graph

/-- Whether two values are equal as far as it takes no more than a number of handles on either side. -/
def equalWithin (g : Graph) : Nat → Value → Value → Bool
  | _, .null, .null => true
  | _, .scalar a, .scalar b => a.equal b
  | depth + 1, .sequence kind a, .sequence kind' b =>
    kind == kind' &&
      (a == b ||
        ((g.sequence a).element == (g.sequence b).element &&
          agreeAll (g.equalWithin depth) (g.sequence a).items (g.sequence b).items))
  | depth + 1, .map a, .map b =>
    a == b ||
      ((g.map a).element == (g.map b).element &&
        agreeEntries (g.equalWithin depth) (g.map a).entries.toList (g.map b).entries.toList)
  | depth + 1, .object a, .object b =>
    a == b ||
      ((g.object a).typeName == (g.object b).typeName &&
        agreeEntries (g.equalWithin depth) (g.object a).members.toList (g.object b).members.toList)
  | _, _, _ => false

/-- Whether two values are equal. -/
def equal (g : Graph) (a b : Value) : Bool :=
  g.equalWithin g.size a b

end Graph

end FieldBinding
