import FieldBinding.Conversion.Temporal
import FieldBinding.Graph.Tree

/-!
# The table of conversions

`Conversion.rule?` gives, for a source and a target, the concerns that are declared for the pair and the
function that converts a value; there is no rule for a pair that cannot be converted.  `Conversion.concerns`
reads the declared concerns off the table, and `Graph.convert` converts a value.

Null stays null.  A value that already has the target type is returned as it is, and so is every value where
anything at all is asked for.
-/

namespace FieldBinding

namespace Conversion

/-- How values of one kind become values of another. -/
structure Rule where
  concerns : List Concern
  run : Graph → Zone → Value → Except ConversionFault Scalar

/-- The concerns of a conversion between primitives.  Every source loses information as a truth value; the
whole numbers of a kind are a range, and larger ones may fall between two floating-point numbers. -/
def primitiveConcerns (source target : PrimitiveKind) : List Concern :=
  match target with
  | .boolean => [.loss]
  | .float =>
    match source with
    | .integer .int | .integer .long => [.loss]
    | .double => [.range, .loss]
    | _ => []
  | .double => if source = .integer .long then [.loss] else []
  | .char | .integer _ =>
    match source.domain?, target.domain? with
    | some (least, greatest), some (least', greatest') =>
      if least' ≤ least ∧ greatest ≤ greatest' then [] else [.range]
    | _, _ => [.range, .loss]

/-- The concerns of reading a primitive from a text. -/
def textConcerns : PrimitiveKind → List Concern
  | .boolean | .double => [.format]
  | .char | .float => [.format, .range]
  | .integer _ => [.format, .range, .loss]

/-- The rule for a source and a target, if there is one. -/
def rule? : ScalarKind → ScalarKind → Option Rule
  | .primitive source, .primitive target =>
    if source = target then none
    else some ⟨primitiveConcerns source target, fun _ _ => toPrimitive target⟩
  | .string, .primitive target => some ⟨textConcerns target, fun _ _ => textToPrimitive target⟩
  | .string, .date => some ⟨[.format], fun _ _ => textToDate⟩
  | .string, .time => some ⟨[.format], fun _ _ => textToTime⟩
  | .string, .dateTime => some ⟨[.format, .timezone], fun _ => textToDateTime⟩
  | .string, .localDateTime => some ⟨[.format], fun _ _ => textToLocalDateTime⟩
  | .string, .string => none
  | _, .string => some ⟨[], fun g _ v => .ok (.string (g.text v))⟩
  | .date, .dateTime => some ⟨[.timezone], fun _ => toDateTime⟩
  | .date, .localDateTime => some ⟨[], fun _ => toLocalDateTime⟩
  | .date, .primitive (.integer .long) => some ⟨[.timezone], fun _ => toMillis⟩
  | .time, .primitive (.integer .long) => some ⟨[], fun _ => toMillis⟩
  | .dateTime, .date => some ⟨[.timezone, .loss], fun _ => toDate⟩
  | .dateTime, .time => some ⟨[.timezone, .loss], fun _ => toTime⟩
  | .dateTime, .localDateTime => some ⟨[.timezone, .loss], fun _ => toLocalDateTime⟩
  | .dateTime, .primitive (.integer .long) => some ⟨[.loss], fun _ => toMillis⟩
  | .localDateTime, .date => some ⟨[.loss], fun _ => toDate⟩
  | .localDateTime, .time => some ⟨[.loss], fun _ => toTime⟩
  | .localDateTime, .dateTime => some ⟨[.timezone], fun _ => toDateTime⟩
  | .localDateTime, .primitive (.integer .long) => some ⟨[.timezone, .loss], fun _ => toMillis⟩
  | .primitive (.integer .long), .date => some ⟨[.range, .timezone], fun _ => toDate⟩
  | .primitive (.integer .long), .time => some ⟨[.range], fun _ => toTime⟩
  | .primitive (.integer .long), .dateTime => some ⟨[.range, .timezone], fun _ => toDateTime⟩
  | .primitive (.integer .long), .localDateTime => some ⟨[.range, .timezone], fun _ => toLocalDateTime⟩
  | _, _ => none

/-- The rule for two types, if there is one. -/
def ruleBetween? (source target : FieldType) : Option Rule := do
  rule? (← source.scalarKind?) (← target.scalarKind?)

/-- Whether values of a type can be converted to another. -/
def supports (source target : FieldType) : Bool :=
  source = target ∨ target = .any ∨ (ruleBetween? source target).isSome

/-- The concerns that are declared for a conversion. -/
def concerns (source target : FieldType) : List Concern :=
  if source = target ∨ target = .any then []
  else ((ruleBetween? source target).map (·.concerns)).getD [.unsupported]

end Conversion

namespace Graph

/-- The type of a value as conversions see it. -/
def fieldTypeOf (g : Graph) (v : Value) : FieldType :=
  (g.tagOf v).fieldType

/-- Converts a value to a type.  The source is the declared one if that is the type of scalars, and that of
the value otherwise. -/
def convert (g : Graph) (zone : Zone) (v : Value) (declared : Option FieldType)
    (target : FieldType) : Except ConversionError Value :=
  if v.isNull then .ok .null
  else
    let actual := g.fieldTypeOf v
    let source := (declared.filter (·.scalarKind?.isSome)).getD actual
    if source = target ∨ actual = target ∨ target = .any then .ok v
    else
      match Conversion.ruleBetween? source target with
      | none => .error ⟨source, target, .noRule source target⟩
      | some rule =>
        match rule.run g zone v with
        | .ok s => .ok (.scalar s)
        | .error fault => .error ⟨source, target, fault⟩

/-- Converts a value to the type of a place; a place that holds no scalar takes any value. -/
def convertTo (g : Graph) (zone : Zone) (v : Value) (tag : TypeTag) :
    Except ConversionError Value :=
  match tag.fieldType with
  | .scalar kind => g.convert zone v none (.scalar kind)
  | .complex | .any => .ok v

theorem convert_null (g : Graph) (zone : Zone) (declared : Option FieldType)
    (target : FieldType) : g.convert zone .null declared target = .ok .null := rfl

end Graph

end FieldBinding
