import FieldBinding.Delimited.Combine
import FieldBinding.Delimited.Separate
import FieldBinding.Property

/-!
# Configuration

The settings of a binder, and their form in JSON.  Everything can be left out.  A structure is written as an
object or as an array of its parts in order; unknown members are ignored, and a known member may be given
once.
-/

namespace FieldBinding

/-- The settings of a binder. -/
structure Config where
  /-- The name of the document in remarks. -/
  docId : Option String := none
  /-- The zone of conversions that need one. -/
  timezone : Option String := none
  propertyOrder : List SourceKind := SourceKind.all
  combine : CombineOptions := {}
  separate : SeparateOptions := {}
  deriving DecidableEq, Repr

namespace JsonValue

/-- The members of a name. -/
def membersOf (members : List (JsonText × JsonValue)) (name : String) : List JsonValue :=
  (members.filter (·.1 = some name)).map (·.2)

/-- The named parts of a structure; each of them may be missing. -/
def parts? (names : List String) : JsonValue → Option (List (Option JsonValue))
  | array items => if items.length ≤ names.length then some (items.map some) else none
  | object members =>
    if members.all (·.1.isSome) ∧ names.all fun name => (membersOf members name).length ≤ 1 then
      some (names.map fun name => (membersOf members name).head?)
    else none
  | _ => none

/-- Reads a part of a structure. A part that is missing has its default. -/
def part? {α : Type} (parts : List (Option JsonValue)) (i : Nat) (default : α)
    (read : JsonValue → Option α) : Option α :=
  match parts[i]? with
  | some (some v) => read v
  | _ => some default

end JsonValue

open JsonValue (optional? part?)

namespace CombineOptions

/-- Writes the options. -/
def toJson (o : CombineOptions) : JsonValue :=
  .ofMembers
    [("delimiter", o.delimiter.toJson), ("limit", .ofOption (o.limit.map .ofNat)), ("trim", .bool o.trim)]

/-- Reads options. -/
def ofJson? (v : JsonValue) : Option CombineOptions := do
  let parts ← v.parts? ["delimiter", "limit", "trim"]
  let o : CombineOptions := {}
  return { delimiter := ← part? parts 0 o.delimiter Delimiter.ofJson?
           limit := ← part? parts 1 o.limit (optional? JsonValue.count?)
           trim := ← part? parts 2 o.trim JsonValue.bool? }

end CombineOptions

namespace SeparateOptions

/-- Writes the options. -/
def toJson (o : SeparateOptions) : JsonValue :=
  .ofMembers [("delimiter", o.delimiter.toJson), ("limit", .ofOption (o.limit.map .ofNat))]

/-- Reads options. -/
def ofJson? (v : JsonValue) : Option SeparateOptions := do
  let parts ← v.parts? ["delimiter", "limit"]
  let o : SeparateOptions := {}
  return { delimiter := ← part? parts 0 o.delimiter Delimiter.ofJson?
           limit := ← part? parts 1 o.limit (optional? JsonValue.count?) }

end SeparateOptions

namespace Config

/-- Writes settings. -/
def toJson (c : Config) : JsonValue :=
  .ofMembers
    [("doc-id", .ofOption (c.docId.map .ofString)), ("timezone", .ofOption (c.timezone.map .ofString)),
      ("property-order", .array (c.propertyOrder.map fun kind => .ofString kind.name)),
      ("combine", c.combine.toJson), ("separate", c.separate.toJson)]

/-- Reads settings. -/
def ofJson? (v : JsonValue) : Option Config := do
  let parts ← v.parts? ["doc-id", "timezone", "property-order", "combine", "separate"]
  let c : Config := {}
  return { docId := ← part? parts 0 c.docId (optional? JsonValue.string?)
           timezone := ← part? parts 1 c.timezone (optional? JsonValue.string?)
           propertyOrder := ← part? parts 2 c.propertyOrder fun v => do
             (← v.array?).mapM SourceKind.ofJson?
           combine := ← part? parts 3 c.combine CombineOptions.ofJson?
           separate := ← part? parts 4 c.separate SeparateOptions.ofJson? }

/-- The settings that a JSON text writes. -/
def parse? (text : String) : Option Config :=
  (JsonValue.parse? text.toList).bind ofJson?

end Config

end FieldBinding
