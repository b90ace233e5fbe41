import FieldBinding.Graph.Basic
import FieldBinding.Path.Algebra

/-!
# Fields

A `Field` is a value at a path.  A path with a wildcard stands for a `FieldGroup`, with one field for each
place that it meets.  `Extracted` is what a read yields: one field, or a group.
-/

namespace FieldBinding

/-- A value at a path. -/
structure Field where
  path : Path
  /-- The declared type, if there is one. -/
  type : Option TypeTag := none
  value : Value := .null
  /-- The position among the places of the innermost wildcard. -/
  index : Option Nat := none
  /-- Whether a value that cannot be converted is an error. -/
  required : Bool := false

/-- The fields at the places of a path with a wildcard. -/
structure FieldGroup where
  path : Path
  type : Option TypeTag := none
  fields : List Field := []

/-- What a read yields. -/
inductive Extracted where
  | field (f : Field)
  | group (g : FieldGroup)

/-- The field of the same type at a path, without a value. -/
def Field.template (f : Field) (path : Path) : Field :=
  { path, type := f.type, required := f.required }

/-- The values of the fields, in order. -/
def FieldGroup.values (g : FieldGroup) : List Value :=
  g.fields.map (·.value)

namespace Extracted

/-- The values that were read, in order. -/
def values : Extracted → List Value
  | field f => [f.value]
  | group g => g.values

/-- The single field. -/
def field? : Extracted → Option Field
  | field f => some f
  | group _ => none

/-- The group. -/
def group? : Extracted → Option FieldGroup
  | field _ => none
  | group g => some g

end Extracted

end FieldBinding
