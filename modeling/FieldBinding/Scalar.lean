import FieldBinding.Calendar.Text
import FieldBinding.Numeral.Shortest
import FieldBinding.Tag

/-!
# Scalars

A `Scalar` is a value without parts: a truth value, a character, a number, a text, a date or a time.
Integers carry the proof that they fit their width.

`Scalar.text` writes a scalar.  `Scalar.equal` is the equality of scalars as values: numbers are compared as
numbers, so the two zeros are equal and what is not a number equals nothing, and instants are compared
without their offsets.
-/

namespace FieldBinding

-- Powers are those of the core library, whatever other instances are in sight.
attribute [local instance (2000)] instPowNat

open Numeral (Single Double)

namespace IntegerKind

/-- The number of bits of a width. -/
def bits : IntegerKind → Nat
  | byte => 8
  | short => 16
  | int => 32
  | long => 64

/-- The least integer of a width. -/
def least (kind : IntegerKind) : Int :=
  -2 ^ (kind.bits - 1)

/-- The greatest integer of a width. -/
def greatest (kind : IntegerKind) : Int :=
  2 ^ (kind.bits - 1) - 1

end IntegerKind

/-- An integer that fits a width. -/
structure Bounded (kind : IntegerKind) where
  toInt : Int
  fits : kind.least ≤ toInt ∧ toInt ≤ kind.greatest := by decide
  deriving DecidableEq, Repr

namespace Bounded

/-- The integer, if it fits the width. -/
def of? (kind : IntegerKind) (i : Int) : Option (Bounded kind) :=
  if h : kind.least ≤ i ∧ i ≤ kind.greatest then some ⟨i, h⟩ else none

/-- The integer zero. -/
def zero (kind : IntegerKind) : Bounded kind :=
  ⟨0, by cases kind <;> decide⟩

end Bounded

/-- A value without parts. -/
inductive Scalar where
  | bool (b : Bool)
  | char (c : Char)
  | integer (kind : IntegerKind) (i : Bounded kind)
  | float (x : Single)
  | double (x : Double)
  | string (s : String)
  | date (d : Date)
  | time (t : TimeOfDay)
  | dateTime (i : OffsetDateTime)
  | localDateTime (l : LocalDateTime)
  deriving DecidableEq, Repr

namespace Scalar

/-- The kind of a scalar. -/
def kind : Scalar → ScalarKind
  | bool _ => .primitive .boolean
  | char _ => .primitive .char
  | integer kind _ => .primitive (.integer kind)
  | float _ => .primitive .float
  | double _ => .primitive .double
  | string _ => .string
  | date _ => .date
  | time _ => .time
  | dateTime _ => .dateTime
  | localDateTime _ => .localDateTime

/-- The text of a scalar. -/
def text : Scalar → String
  | bool b => if b then "true" else "false"
  | char c => c.toString
  | integer _ i => Numeral.signedText i.toInt
  | float x => x.text
  | double x => x.text
  | string s => s
  | date d => d.text
  | time t => t.text
  | dateTime i => i.text
  | localDateTime l => l.text

/-- Equality of scalars as values. -/
def equal : Scalar → Scalar → Bool
  | float x, float y => x.equal y
  | double x, double y => x.equal y
  | dateTime i, dateTime j => i.utc = j.utc
  | a, b => a = b

/-- The integer that a scalar is. -/
def integer? : Scalar → Option Int
  | integer _ i => some i.toInt
  | _ => none

/-- The number of 64 bits nearest to the number that a scalar is. -/
def double? : Scalar → Option Double
  | float x => some x.convert
  | double x => some x
  | s => s.integer?.map .ofInt

/-- The text that a scalar is. -/
def string? : Scalar → Option String
  | string s => some s
  | _ => none

/-- What a place of a kind of primitives holds before anything is written to it. -/
def zero : PrimitiveKind → Scalar
  | .boolean => bool false
  | .char => char '\x00'
  | .integer kind => integer kind (.zero kind)
  | .float => float (.ofMagnitude false 0)
  | .double => double (.ofMagnitude false 0)

theorem kind_zero (kind : PrimitiveKind) : (zero kind).kind = .primitive kind := by
  cases kind <;> rfl

theorem equal_symm (a b : Scalar) : a.equal b = b.equal a := by
  cases a <;> cases b <;> simp [equal, Numeral.Binary.equal_symm, eq_comm]

end Scalar

end FieldBinding
