import FieldBinding.Slot

/-!
# Types

A `TypeTag` is the declared type of a place: a primitive that is never null, a scalar that may be, an
object type by its name, a collection with the type of its elements, or anything at all.

A `FieldType` is what is left of a tag when only conversions matter: the `ScalarKind` of a scalar, and one
type each for everything with parts and for anything at all.  `TypeTag.fieldType` forgets the difference.
-/

namespace FieldBinding

/-- The widths of integers. -/
inductive IntegerKind where
  | byte
  | short
  | int
  | long
  deriving DecidableEq, Repr

/-- The kinds of primitives: a place of such a kind can be one that is never null. -/
inductive PrimitiveKind where
  | boolean
  | char
  | integer (kind : IntegerKind)
  | float
  | double
  deriving DecidableEq, Repr

/-- The kinds of scalars, which are what can be converted. -/
inductive ScalarKind where
  | primitive (kind : PrimitiveKind)
  | string
  | date
  | time
  | dateTime
  | localDateTime
  deriving DecidableEq, Repr

/-- A type as conversions see it. -/
inductive FieldType where
  | scalar (kind : ScalarKind)
  | complex
  | any
  deriving DecidableEq, Repr

/-- The declared type of a place. -/
inductive TypeTag where
  /-- A primitive that is never null. -/
  | primitive (kind : PrimitiveKind)
  /-- A scalar, or null. -/
  | scalar (kind : ScalarKind)
  /-- An object of the type with this name. -/
  | complex (name : String)
  | sequence (kind : SequenceKind) (element : TypeTag)
  | map (value : TypeTag)
  | any
  deriving DecidableEq, Repr, Inhabited

/-! ## Names -/

/-- The name of a width of integers. -/
def IntegerKind.name : IntegerKind → String
  | byte => "byte"
  | short => "short"
  | int => "int"
  | long => "long"

/-- The name of a kind of primitives. -/
def PrimitiveKind.name : PrimitiveKind → String
  | boolean => "boolean"
  | char => "char"
  | integer kind => kind.name
  | float => "float"
  | double => "double"

/-- The name of a kind of scalars. -/
def ScalarKind.name : ScalarKind → String
  | primitive kind => kind.name
  | string => "string"
  | date => "date"
  | time => "time"
  | dateTime => "date-time"
  | localDateTime => "local-date-time"

/-- The name of a type as conversions see it. -/
def FieldType.name : FieldType → String
  | scalar kind => kind.name
  | complex => "complex"
  | any => "any"

/-- The text of a tag.  A question mark shows that a primitive may be null. -/
def TypeTag.text : TypeTag → String
  | primitive kind => kind.name
  | scalar (.primitive kind) => kind.name ++ "?"
  | scalar kind => kind.name
  | complex name => name
  | sequence .array element => element.text ++ "[]"
  | sequence .list element => "list<" ++ element.text ++ ">"
  | map value => "map<" ++ value.text ++ ">"
  | any => "any"

/-! ## Kinds of scalars -/

namespace PrimitiveKind

/-- Every kind of primitives. -/
def all : List PrimitiveKind :=
  [boolean, integer .byte, char, integer .short, integer .int, integer .long, float, double]

theorem mem_all (kind : PrimitiveKind) : kind ∈ all := by
  cases kind with
  | integer kind => cases kind <;> decide
  | _ => decide

end PrimitiveKind

namespace ScalarKind

/-- Every kind of scalars. -/
def all : List ScalarKind :=
  PrimitiveKind.all.map primitive ++ [string, date, time, dateTime, localDateTime]

theorem mem_all (kind : ScalarKind) : kind ∈ all := by
  cases kind with
  | primitive kind =>
    exact List.mem_append_left _ (List.mem_map_of_mem (PrimitiveKind.mem_all kind))
  | _ => exact List.mem_append_right _ (by decide)

/-- Whether the scalars are primitives with a numeric value other than truth values. -/
def isNumeric : ScalarKind → Bool
  | primitive .boolean => false
  | primitive _ => true
  | _ => false

/-- Whether the scalars are whole numbers. -/
def isIntegral : ScalarKind → Bool
  | primitive .char | primitive (.integer _) => true
  | _ => false

/-- Whether the scalars are binary floating-point numbers. -/
def isFloating : ScalarKind → Bool
  | primitive .float | primitive .double => true
  | _ => false

/-- Whether the scalars are dates or times. -/
def isTemporal : ScalarKind → Bool
  | date | time | dateTime | localDateTime => true
  | _ => false

/-- The kind of primitives that the scalars are. -/
def primitiveKind? : ScalarKind → Option PrimitiveKind
  | primitive kind => some kind
  | _ => none

end ScalarKind

/-- The kind of scalars that a type stands for. -/
def FieldType.scalarKind? : FieldType → Option ScalarKind
  | scalar kind => some kind
  | _ => none

/-! ## Tags -/

namespace TypeTag

/-- The type as conversions see it. -/
def fieldType : TypeTag → FieldType
  | primitive kind => .scalar (.primitive kind)
  | scalar kind => .scalar kind
  | complex _ | sequence _ _ | map _ => .complex
  | any => .any

/-- The kind of primitives at a place, whether or not it may be null. -/
def primitiveKind? : TypeTag → Option PrimitiveKind
  | primitive kind | scalar (.primitive kind) => some kind
  | _ => none

/-- Whether a place of this type can be null. -/
def isNullable : TypeTag → Bool
  | primitive _ => false
  | _ => true

/-- Whether a place of this type is a primitive that may be null. -/
def isBoxed : TypeTag → Bool
  | scalar (.primitive _) => true
  | _ => false

/-- Whether a place of this type holds a sequence or a map. -/
def isCollection : TypeTag → Bool
  | sequence _ _ | map _ => true
  | _ => false

/-- The type of the elements or of the values of entries. -/
def element? : TypeTag → Option TypeTag
  | sequence _ element => some element
  | map value => some value
  | _ => none

/-- The tag with the opposite nullability, for primitives; any other tag stays. -/
def swapped : TypeTag → TypeTag
  | primitive kind => scalar (.primitive kind)
  | scalar (.primitive kind) => primitive kind
  | tag => tag

end TypeTag

end FieldBinding
