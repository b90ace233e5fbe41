import FieldBinding.Delimited.Delimiter
import FieldBinding.Field
import FieldBinding.Graph.Tree
import FieldBinding.Text.Cut

/-!
# Separating a delimited text into items

A text is cut at every occurrence of a delimiter, or at most so often that no more items come out than a
limit allows; the last item then keeps the rest.  Empty items at the end are dropped.  A delimiter that
parts at white space ignores white space in front.
-/

namespace FieldBinding

/-- How a text is separated. -/
structure SeparateOptions where
  delimiter : Delimiter := .multiSpace
  /-- The most items; none or zero means any number. -/
  limit : Option Nat := none
  deriving DecidableEq, Repr

/-- The list without empty texts at its end. -/
def dropEmptyEnd (items : List (List Char)) : List (List Char) :=
  (items.reverse.dropWhile List.isEmpty).reverse

/-- The most cuts that leave no more items than a limit allows.  A text cannot be cut more often than in
front of each character and at its end. -/
def cutLimit (limit : Option Nat) (text : List Char) : Nat :=
  match limit with
  | none | some 0 => text.length + 1
  | some (n + 1) => n

/-- The items of a text that is given as characters. -/
def separateChars (options : SeparateOptions) (text : List Char) : List (List Char) :=
  let cuts := cutLimit options.limit text
  dropEmptyEnd <|
    if options.delimiter.isPattern then Text.pieces Text.cutBlank cuts (Text.trimStart text)
    else Text.piecesAt options.delimiter.text.toList cuts text

/-- The items of a text. -/
def separate (options : SeparateOptions) (text : String) : List String :=
  if text.isEmpty then [] else (separateChars options text.toList).map String.ofList

/-- The path of an item: the number of the item goes into the brackets of the first wildcard, if there is one. -/
def Path.forItem (p : Path) (i : Nat) : Except PathError Path :=
  if p.hasWildcard then p.withVacantIndex i else .ok p

/-- The field of an item at its path. -/
def Field.ofItem (field : Field) (path : Path) (item : String) (i : Nat) : Field :=
  { field.template path with
    type := some (.scalar .string)
    value := .scalar (.string item)
    index := some i }

namespace Graph

/-- The items of a value; null has none. -/
def items (g : Graph) (options : SeparateOptions) (v : Value) : List String :=
  if v.isNull then [] else separate options (g.text v)

/-- The fields of the items of a value, unless the path of an item is refused. -/
def itemFields (g : Graph) (options : SeparateOptions) (field : Field) : Except PathError FieldGroup := do
  let fields ← (g.items options field.value).zipIdx.mapM fun (item, i) => do
    let path ← field.path.forItem i
    return field.ofItem path item i
  return { path := field.path, type := some (.scalar .string), fields }

/-- The fields of the items of a value.  The path of an item is never refused, since a wildcard takes every
number. -/
def separateField (g : Graph) (options : SeparateOptions) (field : Field) : FieldGroup :=
  (g.itemFields options field).toOption.getD { path := field.path, type := some (.scalar .string) }

end Graph

end FieldBinding
