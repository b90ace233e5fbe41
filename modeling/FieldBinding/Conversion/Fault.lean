import FieldBinding.Calendar.Reading
import FieldBinding.Scalar

/-!
# Concerns and failures of conversions

A `Concern` is a way in which a conversion from one kind to another can go wrong.  A `ConversionFault` is
one way in which it did go wrong, and belongs to exactly one concern (`ConversionFault.concern`).  Loss is
declared but is never a failure.
-/

namespace FieldBinding

/-- What can go wrong in a conversion. -/
inductive Concern where
  /-- The value does not fit the target. -/
  | range
  /-- Precision or information may be dropped. -/
  | loss
  /-- A text does not have the form of the target. -/
  | format
  /-- A zone is needed and the given one is unknown or has no such time. -/
  | timezone
  /-- There is no conversion for the kinds, or not for this value. -/
  | unsupported
  deriving DecidableEq, Repr

/-- The name of a concern in messages. -/
def Concern.label : Concern → String
  | range => "Range"
  | loss => "Loss"
  | format => "Format"
  | timezone => "Timezone"
  | unsupported => "Unsupported"

/-- A number on its way to another kind: a whole one, or a binary floating-point one. -/
inductive Number where
  | whole (i : Int)
  | floating (x : Numeral.Double)
  deriving DecidableEq, Repr

/-- The text of a number. -/
def Number.text : Number → String
  | whole i => Numeral.signedText i
  | floating x => x.text

/-- Why a value cannot be converted. -/
inductive ConversionFault where
  | outside (number : Number) (target : PrimitiveKind) (least greatest : Int)
  | surrogate (code : Nat)
  | beyondFloat (x : Numeral.Double)
  | notBoolean (text : String)
  | notNumber (text : String) (target : PrimitiveKind)
  | beyondChar (c : Char)
  | notOneCharacter (text : String)
  | notDate (text : String) (reason : DateFault)
  | notTime (text : String)
  | notLocalDateTime (text : String)
  | notDateTime (text : String)
  | unknownZone (name : String)
  | noSuchInstant (l : LocalDateTime)
  | beyondCalendar (millis : Int)
  | beyondDay (millis : Int)
  /-- The value is not of the kind that it was announced to be. -/
  | unexpected (kindName : String)
  /-- There is no conversion between the kinds. -/
  | noRule (source target : FieldType)
  deriving DecidableEq, Repr

namespace ConversionFault

/-- The concern that a failure belongs to. -/
def concern : ConversionFault → Concern
  | outside .. | surrogate _ | beyondFloat _ | beyondChar _ | beyondCalendar _ | beyondDay _ => .range
  | notBoolean _ | notNumber .. | notOneCharacter _ | notDate .. | notTime _ | notLocalDateTime _
  | notDateTime _ => .format
  | unknownZone _ | noSuchInstant _ => .timezone
  | unexpected _ | noRule .. => .unsupported

/-- A text between quotation marks. -/
def quoted (text : String) : String :=
  "'" ++ text ++ "'"

/-- What is wrong, in words. -/
def message : ConversionFault → String
  | outside number target least greatest =>
    number.text ++ " is outside the " ++ target.name ++ " range [" ++ Numeral.signedText least ++ ", " ++
      Numeral.signedText greatest ++ "]"
  | surrogate code => "0x" ++ String.ofList (Nat.toDigits 16 code) ++ " is a surrogate code unit"
  | beyondFloat x => x.text ++ " exceeds the float range"
  | notBoolean text => quoted text ++ " is not a boolean literal"
  | notNumber text target => quoted text ++ " is not a valid " ++ target.name
  | beyondChar c => quoted c.toString ++ " is outside the char range"
  | notOneCharacter text => quoted text ++ " is not a single character"
  | notDate text reason => quoted text ++ " is not a date: " ++ reason.message
  | notTime text => quoted text ++ " is not a time"
  | notLocalDateTime text => quoted text ++ " is not a local date-time"
  | notDateTime text => quoted text ++ " is not a date-time"
  | unknownZone name => "unknown timezone " ++ quoted name
  | noSuchInstant l => l.prose ++ " does not exist in the target zone"
  | beyondCalendar millis => Numeral.signedText millis ++ " ms is outside the supported range"
  | beyondDay millis => Numeral.signedText millis ++ " ms is not a time of day"
  | unexpected kindName => "unexpected " ++ kindName ++ " value"
  | noRule source target => "no converter from " ++ source.name ++ " to " ++ target.name

end ConversionFault

/-- A failed conversion. -/
structure ConversionError where
  source : FieldType
  target : FieldType
  fault : ConversionFault
  deriving DecidableEq, Repr

/-- What happened, in words. -/
def ConversionError.message (e : ConversionError) : String :=
  "cannot convert " ++ e.source.name ++ " to " ++ e.target.name ++ " (" ++ e.fault.concern.label ++ "): " ++
    e.fault.message

end FieldBinding
