import FieldBinding.Registry.Basic

/-!
# Accessors of fields

The getter, the setter and the member of a field are looked up in the lineage of a type, so those of a type
hide those of its ancestors.

A field may have several setters.  Where the type of the value is known, the first setter whose parameter
accepts it is taken.  Otherwise the choice has to be clear: there is only one setter, or one takes exactly
what the getter yields.
-/

namespace FieldBinding.Registry

/-- Whether a place of one type can take a value of another.  Anything at all fits and is fitted by every
type, the nullability of primitives does not count, and objects may be of a derived type. -/
def accepts (r : Registry) : TypeTag → TypeTag → Bool
  | .any, _ | _, .any => true
  | .complex a, .complex b => r.isAssignable b a
  | .sequence .array a, .sequence .array b => r.accepts a b
  | .sequence .list a, .sequence .list b => r.accepts a b
  | .map a, .map b => r.accepts a b
  | a, b => a = b ∨ (a.primitiveKind?.isSome ∧ a.primitiveKind? = b.primitiveKind?)

/-- The getter of a field; in each type, `get` comes before `is`. -/
def getter? (r : Registry) (typeName field : String) : Option Getter :=
  (r.lineage typeName).findSome? fun d =>
    (d.getters.get? (accessorName "get" field)).or (d.getters.get? (accessorName "is" field))

/-- The setters of a field. -/
def settersOf (r : Registry) (typeName field : String) : List Setter :=
  (r.lineage typeName).flatMap fun d => (d.setters.get? (accessorName "set" field)).getD []

/-- The member of a field. -/
def member? (r : Registry) (typeName field : String) : Option Member :=
  (r.lineage typeName).findSome? (·.member? field)

/-- The setter whose parameter is what the getter of the field yields. -/
def pairedSetter? (r : Registry) (typeName field : String) : Option Setter := do
  let g ← r.getter? typeName field
  (r.settersOf typeName field).find? (·.parameter = g.result)

/-- The setter of a field for a value of a type, if the type is known. -/
def setter (r : Registry) (typeName field : String) (hint : Option TypeTag) : Except BindError Setter :=
  let missing : BindError := .noAccessor typeName field
  match r.settersOf typeName field, hint with
  | [], _ => .error missing
  | candidates, some tag =>
    match candidates.find? fun s => r.accepts s.parameter tag with
    | some s => .ok s
    | none => .error missing
  | [only], none => .ok only
  | candidates, none =>
    match r.pairedSetter? typeName field with
    | some s => .ok s
    | none => .error (.ambiguousSetter typeName field (candidates.map (·.signature)))

/-- The declared type of a field: what its getter yields, or what its setter takes, or the type of its
member. -/
def declared? (r : Registry) (typeName field : String) : Option TypeTag :=
  ((r.getter? typeName field).map (·.result)).or <|
    ((r.setter typeName field none).toOption.map (·.parameter)).or <|
      (r.member? typeName field).map (·.declared)

end FieldBinding.Registry
