import FieldBinding.Numeral.Binary
import FieldBinding.Numeral.Digits

/-!
# Reading numbers

`Literal.read?` reads a decimal number: an optional sign, digits with at most one point among or around
them, and an optional power of ten; or one of the words for infinity and for what is not a number, in
either case.  `Literal.toBinary` is the binary number nearest to it, `Numeral.long?` reads an integer of 64
bits.
-/

namespace FieldBinding.Numeral

-- Powers are those of the core library, whatever other instances are in sight.
attribute [local instance (2000)] instPowNat

/-- A written number. -/
inductive Literal where
  | nan
  | infinite (negative : Bool)
  /-- The number `digits · 10 ^ exponent`, or its opposite. -/
  | decimal (negative : Bool) (digits : Nat) (exponent : Int)
  deriving DecidableEq, Repr

namespace Literal

/-- Digits with at most one point; the number of those behind the point counts as a negative power of
ten. -/
def mantissa? (cs : List Char) : Option (Nat × Int) :=
  let whole := cs.takeWhile Char.isDigit
  match cs.dropWhile Char.isDigit with
  | [] => (value? whole).map fun n => (n, 0)
  | '.' :: places =>
    if places.all Char.isDigit then
      (value? (whole ++ places)).map fun n => (n, -(places.length : Int))
    else none
  | _ => none

/-- The power of ten behind a mantissa; none is written for the power zero. -/
def exponent? : List Char → Option Int
  | [] => some 0
  | _ :: cs => integer? cs

/-- A number without a sign. -/
def unsigned? (negative : Bool) (cs : List Char) : Option Literal :=
  let lower := String.ofList (cs.map Char.toLower)
  if lower = "inf" ∨ lower = "infinity" then some (infinite negative)
  else if lower = "nan" then some nan
  else do
    let (n, places) ← mantissa? (cs.takeWhile (·.toLower ≠ 'e'))
    let power ← exponent? (cs.dropWhile (·.toLower ≠ 'e'))
    return decimal negative n (places + power)

/-- The number that a text writes. -/
def read? : List Char → Option Literal
  | '+' :: cs => unsigned? false cs
  | '-' :: cs => unsigned? true cs
  | cs => unsigned? false cs

/-- The binary number nearest to a written one.  A decimal exponent beyond every exponent of the format is
not computed: the number is then infinite or zero. -/
def toBinary {f : Format} : Literal → Binary f
  | nan => .nan
  | infinite negative => .infinite negative
  | decimal negative n exponent =>
    let bound : Int := 2 ^ (f.exponentBits - 1) + f.precision
    let order := exponent + (digits n).length
    if n = 0 ∨ order < -bound then .ofMagnitude negative 0
    else if bound < order then .infinite negative
    else .round negative (n * 10 ^ exponent.toNat) (10 ^ (-exponent).toNat)

end Literal

/-- The integer of 64 bits that a text writes. -/
def long? (cs : List Char) : Option Int :=
  let bound : Int := 2 ^ (63 : Nat)
  (integer? cs).filter fun i => -bound ≤ i ∧ i < bound

end FieldBinding.Numeral
