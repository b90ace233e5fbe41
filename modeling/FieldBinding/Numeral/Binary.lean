/-!
# Binary floating-point numbers

Numbers of the binary interchange formats, kept as their bits.  A `Format` has a precision and a width for
the exponent; `Numeral.single` and `Numeral.double` are the formats of 32 and 64 bits.

`Binary.datum` decodes the bits: a number that is not a NaN and not infinite is `± m · 2 ^ q` for a
significand `m` and an exponent `q`.  `Binary.round` goes the other way and gives the number nearest to a
quotient of natural numbers; of two numbers that are equally near it takes the one with the even
significand, and a quotient beyond the greatest number becomes infinite.

The magnitudes of finite numbers are ordered as their bits are, which is why `magnitude` counts the numbers
from zero upwards and rounding upwards over a power of two needs no case of its own.
-/

namespace FieldBinding.Numeral

-- Powers are those of the core library, whatever other instances are in sight.
attribute [local instance (2000)] instPowNat

/-- A binary format: the bits of a significand, its leading bit included, and the bits of an exponent. -/
structure Format where
  precision : Nat
  exponentBits : Nat
  deriving DecidableEq, Repr

/-- The format of 32 bits. -/
@[reducible] def single : Format := ⟨24, 8⟩

/-- The format of 64 bits. -/
@[reducible] def double : Format := ⟨53, 11⟩

namespace Format

/-- The number of bits of a number: the sign, the exponent and the significand without its leading bit. -/
@[reducible] def width (f : Format) : Nat :=
  f.precision + f.exponentBits

/-- The number of bits of a significand that are written. -/
def fractionBits (f : Format) : Nat :=
  f.precision - 1

/-- The exponent of the least unit. -/
def leastExponent (f : Format) : Int :=
  2 - 2 ^ (f.exponentBits - 1) - f.fractionBits

/-- The magnitude of infinity: one more than that of any finite number. -/
def infinity (f : Format) : Nat :=
  (2 ^ f.exponentBits - 1) * 2 ^ f.fractionBits

end Format

/-- A number of a binary format. -/
structure Binary (f : Format) where
  bits : BitVec f.width
  deriving DecidableEq, Repr

/-- A number of 32 bits. -/
abbrev Single := Binary single

/-- A number of 64 bits. -/
abbrev Double := Binary double

/-- What the bits of a number mean. -/
inductive Datum where
  | nan
  | infinite (negative : Bool)
  /-- The number `significand · 2 ^ exponent`, or its opposite. -/
  | finite (negative : Bool) (significand : Nat) (exponent : Int)
  deriving DecidableEq, Repr

namespace Binary

variable {f : Format}

/-- The bits below the sign, as a number. -/
def magnitude (x : Binary f) : Nat :=
  x.bits.toNat % 2 ^ (f.width - 1)

/-- Whether the sign is negative. -/
def isNegative (x : Binary f) : Bool :=
  x.bits.msb

/-- The number with a sign and a magnitude. -/
def ofMagnitude (negative : Bool) (magnitude : Nat) : Binary f :=
  ⟨BitVec.ofNat f.width ((if negative then 2 ^ (f.width - 1) else 0) + magnitude)⟩

/-- A value that is not a number. -/
def nan : Binary f :=
  ofMagnitude false (f.infinity + 2 ^ (f.fractionBits - 1))

/-- Infinity with a sign. -/
def infinite (negative : Bool) : Binary f :=
  ofMagnitude negative f.infinity

/-- The significand and the exponent of a finite magnitude. -/
def parts (f : Format) (magnitude : Nat) : Nat × Int :=
  let exponent := magnitude / 2 ^ f.fractionBits
  let fraction := magnitude % 2 ^ f.fractionBits
  if exponent = 0 then (fraction, f.leastExponent)
  else (2 ^ f.fractionBits + fraction, f.leastExponent + (exponent - 1 : Nat))

/-- What the number means. -/
def datum (x : Binary f) : Datum :=
  if f.infinity < x.magnitude then .nan
  else if x.magnitude = f.infinity then .infinite x.isNegative
  else
    let (significand, exponent) := parts f x.magnitude
    .finite x.isNegative significand exponent

/-- Whether the value is not a number. -/
def isNaN (x : Binary f) : Bool :=
  f.infinity < x.magnitude

/-- Whether the value is finite. -/
def isFinite (x : Binary f) : Bool :=
  x.magnitude < f.infinity

/-- Whether the number is a zero of either sign. -/
def isZero (x : Binary f) : Bool :=
  x.magnitude = 0

/-- Numeric equality: the two zeros are equal, and what is not a number equals nothing. -/
def equal (x y : Binary f) : Bool :=
  !x.isNaN && !y.isNaN && ((x.isZero && y.isZero) || x.bits == y.bits)

theorem equal_symm (x y : Binary f) : x.equal y = y.equal x := by
  unfold equal
  rw [Bool.and_comm (!x.isNaN), Bool.and_comm x.isZero, BEq.comm (a := x.bits)]

/-! ## Rounding -/

/-- The quotient of two natural numbers rounded to the nearest, a half to the even neighbour. -/
def roundHalfEven (num den : Nat) : Nat :=
  let quotient := num / den
  let twice := 2 * (num % den)
  if den < twice ∨ (twice = den ∧ quotient % 2 = 1) then quotient + 1 else quotient

/-- The quotient `num / den / 2 ^ exponent` as a pair of natural numbers. -/
def scaled (num den : Nat) (exponent : Int) : Nat × Nat :=
  (num * 2 ^ (-exponent).toNat, den * 2 ^ exponent.toNat)

/-- The greatest exponent `e` with `2 ^ e ≤ num / den`, for a quotient that is not zero. -/
def binaryExponent (num den : Nat) : Int :=
  let estimate : Int := num.log2 - den.log2
  let (n, d) := scaled num den estimate
  if n < d then estimate - 1 else estimate

/-- The magnitude of the number nearest to `num / den`. -/
def roundedMagnitude (f : Format) (num den : Nat) : Nat :=
  if num = 0 then 0
  else
    let exponent := max f.leastExponent (binaryExponent num den - f.fractionBits)
    let (n, d) := scaled num den exponent
    min f.infinity ((exponent - f.leastExponent).toNat * 2 ^ f.fractionBits + roundHalfEven n d)

/-- The number nearest to `num / den`, or to its opposite. -/
def round (negative : Bool) (num den : Nat) : Binary f :=
  ofMagnitude negative (roundedMagnitude f num den)

/-- The number nearest to an integer. -/
def ofInt (i : Int) : Binary f :=
  round (decide (i < 0)) i.natAbs 1

/-- The number of another format that is nearest. -/
def convert {g : Format} (x : Binary f) : Binary g :=
  match x.datum with
  | .nan => nan
  | .infinite negative => infinite negative
  | .finite negative significand exponent =>
    round negative (significand * 2 ^ exponent.toNat) (2 ^ (-exponent).toNat)

/-- The integer part of a finite number: the digits behind the point are cut off. -/
def truncate? (x : Binary f) : Option Int :=
  match x.datum with
  | .finite negative significand exponent =>
    let whole := significand * 2 ^ exponent.toNat / 2 ^ (-exponent).toNat
    some (if negative then -(whole : Int) else whole)
  | _ => none

end Binary

end FieldBinding.Numeral
