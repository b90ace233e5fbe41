import FieldBinding.Json.Basic
import FieldBinding.Tag

/-!
# Tags in JSON

A tag without parts is written by its name, and any other tag as an object with one member, which is named
for the form of the tag.  A name may also be written as a member whose value is null.

The integers have two names: places and values of that kind are of the kind `int`, and conversions go to
`integer`.
-/

namespace FieldBinding

namespace PrimitiveKind

/-- The kind with a name. -/
def ofName? (name : String) : Option PrimitiveKind :=
  all.find? (·.name = name)

/-- Reads a kind. -/
def ofJson? (v : JsonValue) : Option PrimitiveKind :=
  v.plainChoice?.bind ofName?

theorem ofName?_name (kind : PrimitiveKind) : ofName? kind.name = some kind := by
  cases kind with
  | integer kind => cases kind <;> rfl
  | _ => rfl

end PrimitiveKind

namespace FieldType

/-- Every type as conversions see it. -/
def all : List FieldType :=
  ScalarKind.all.map scalar ++ [complex, any]

/-- The name under which a type is written. -/
def jsonName : FieldType → String
  | scalar (.primitive (.integer .int)) => "integer"
  | t => t.name

/-- The type with a written name. -/
def ofName? (name : String) : Option FieldType :=
  all.find? (·.jsonName = name)

end FieldType

namespace TypeTag

/-- The tag without parts that has a name. -/
def ofPlainName? : String → Option TypeTag
  | "string" => some (scalar .string)
  | "date" => some (scalar .date)
  | "time" => some (scalar .time)
  | "date-time" => some (scalar .dateTime)
  | "local-date-time" => some (scalar .localDateTime)
  | "any" => some any
  | _ => none

/-- Writes a tag. -/
def toJson : TypeTag → JsonValue
  | primitive kind => .ofMembers [("primitive", .ofString kind.name)]
  | scalar (.primitive kind) => .ofMembers [("boxed", .ofString kind.name)]
  | scalar kind => .ofString kind.name
  | complex name => .ofMembers [("complex", .ofString name)]
  | sequence .array element => .ofMembers [("array", element.toJson)]
  | sequence .list element => .ofMembers [("list", element.toJson)]
  | map value => .ofMembers [("map", value.toJson)]
  | any => .ofString "any"

/-- Reads a tag. -/
def ofJson? : JsonValue → Option TypeTag
  | .text (some name) => ofPlainName? name
  | .object [(some name, v)] =>
    match name with
    | "primitive" => (PrimitiveKind.ofJson? v).map primitive
    | "boxed" => (PrimitiveKind.ofJson? v).map fun kind => scalar (.primitive kind)
    | "complex" => v.string?.map complex
    | "array" => (ofJson? v).map (sequence .array)
    | "list" => (ofJson? v).map (sequence .list)
    | "map" => (ofJson? v).map map
    | name =>
      match v with
      | .null => ofPlainName? name
      | _ => none
  | _ => none

/-- A tag can be read back from what is written for it. -/
theorem ofJson?_toJson (tag : TypeTag) : ofJson? tag.toJson = some tag := by
  induction tag with
  | primitive kind =>
    simp [toJson, ofJson?, JsonValue.ofMembers, JsonValue.ofString, PrimitiveKind.ofJson?,
      JsonValue.plainChoice?, JsonValue.choice?, PrimitiveKind.ofName?_name]
  | scalar kind =>
    cases kind with
    | primitive kind =>
      simp [toJson, ofJson?, JsonValue.ofMembers, JsonValue.ofString, PrimitiveKind.ofJson?,
        JsonValue.plainChoice?, JsonValue.choice?, PrimitiveKind.ofName?_name]
    | _ => rfl
  | complex name =>
    simp [toJson, ofJson?, JsonValue.ofMembers, JsonValue.ofString, JsonValue.string?]
  | sequence kind element ih =>
    cases kind <;> simp [toJson, ofJson?, JsonValue.ofMembers, ih]
  | map value ih => simp [toJson, ofJson?, JsonValue.ofMembers, ih]
  | any => rfl

end TypeTag

end FieldBinding
