import FieldBinding.Conversion.Rule
import FieldBinding.Delimited.Delimiter
import FieldBinding.Field
import FieldBinding.Text.Blank

/-!
# Combining items into a delimited text

Items are joined by the text of a delimiter, without the white space at their ends unless it is kept.  No
items give no text, and a limit keeps that many characters from the front.
-/

namespace FieldBinding

/-- How items are combined. -/
structure CombineOptions where
  delimiter : Delimiter := .space
  /-- The most characters that are kept. -/
  limit : Option Nat := none
  /-- Whether items lose the white space at their ends. -/
  trim : Bool := true
  deriving DecidableEq, Repr

/-- The text of some items; none for no items. -/
def combine (options : CombineOptions) (items : List String) : Option String :=
  if items.isEmpty then none
  else
    let kept := if options.trim then items.map Text.trimmed else items
    let joined := options.delimiter.text.intercalate kept
    some <|
      match options.limit with
      | none => joined
      | some n => String.ofList (joined.toList.take n)

namespace Graph

/-- The text that a value becomes as an item; none for null and for what has no text.  It is the same in every zone. -/
def itemText? (g : Graph) (v : Value) : Option String :=
  match g.convert .utc v none (.scalar .string) with
  | .ok (.scalar (.string s)) => some s
  | _ => none

/-- The text of the values of a group. -/
def combineFields (g : Graph) (options : CombineOptions) (group : FieldGroup) : Option String :=
  combine options (group.values.filterMap g.itemText?)

end Graph

end FieldBinding
