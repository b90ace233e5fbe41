import FieldBinding.Numeral.Binary
import FieldBinding.Numeral.Digits

/-!
# The shortest decimal text of a binary number

Among the decimal numbers that round to a given binary number, the text shows one with the fewest digits,
and of those the nearest.  All arithmetic is exact: the number is `D · 10 ^ x` for a natural number `D`,
and so are the two ends of the interval of numbers that round to it.  `Shortest.decimal` removes as many
digits from `D` as it can so that one of the two neighbours of `D` on the coarser grid is still inside the
interval.

The text is positional: no exponent is written, however many zeros that takes.
-/

namespace FieldBinding.Numeral

-- Powers are those of the core library, whatever other instances are in sight.
attribute [local instance (2000)] instPowNat

/-- The interval of numbers that round to one number, in quarters of a unit of the last place of `center`:
all three are multiples of `10 ^ exponent / 4`. -/
structure RoundingInterval where
  lower : Nat
  center : Nat
  upper : Nat
  /-- Whether the two ends round to the number too. -/
  closed : Bool
  exponent : Int
  deriving Repr

namespace RoundingInterval

/-- The interval around a positive number `significand · 2 ^ exponent` of a format.  Below a power of two
the numbers lie twice as close together. -/
def around (f : Format) (significand : Nat) (exponent : Int) : RoundingInterval :=
  let unit := if 0 ≤ exponent then 2 ^ exponent.toNat else 5 ^ (-exponent).toNat
  let narrow := significand = 2 ^ f.fractionBits ∧ f.leastExponent < exponent
  let center := 4 * (significand * unit)
  { lower := center - (if narrow then unit else 2 * unit)
    center
    upper := center + 2 * unit
    closed := significand % 2 = 0
    exponent := min exponent 0 }

/-- Whether a number, in quarters of a unit, lies in the interval. -/
def contains (i : RoundingInterval) (quarters : Nat) : Bool :=
  if i.closed then i.lower ≤ quarters && quarters ≤ i.upper
  else i.lower < quarters && quarters < i.upper

/-- The nearest of the two neighbours of the center on the grid of multiples of `10 ^ zeros` that lies in
the interval, in multiples of that power.  A tie goes to the upper one. -/
def neighbour? (i : RoundingInterval) (zeros : Nat) : Option Nat :=
  let step := 4 * 10 ^ zeros
  let below := i.center / step
  let lowerFits := i.contains (below * step)
  let upperFits := i.contains ((below + 1) * step)
  let upperNearer := step ≤ 2 * (i.center % step)
  match lowerFits, upperFits with
  | true, true => some (if upperNearer then below + 1 else below)
  | true, false => some below
  | false, true => some (below + 1)
  | false, false => none

/-- The coarsest grid that has a neighbour in the interval, tried from `zeros` downwards, with that
neighbour. -/
def coarsest (i : RoundingInterval) : Nat → Nat × Nat
  | 0 => (i.center / 4, 0)
  | zeros + 1 =>
    match i.neighbour? (zeros + 1) with
    | some n => (n, zeros + 1)
    | none => i.coarsest zeros

end RoundingInterval

/-- A decimal number `digits · 10 ^ exponent`. -/
structure Decimal where
  digits : Nat
  exponent : Int
  deriving DecidableEq, Repr

namespace Decimal

/-- The shortest decimal number that rounds to the positive number `significand · 2 ^ exponent`. -/
def shortest (f : Format) (significand : Nat) (exponent : Int) : Decimal :=
  let interval := RoundingInterval.around f significand exponent
  let (n, zeros) := interval.coarsest (Numeral.digits (interval.center / 4)).length
  ⟨n, interval.exponent + zeros⟩

/-- The positional text of a decimal number.  A point is written only in front of digits. -/
def chars (d : Decimal) : List Char :=
  let ds := Numeral.digits d.digits
  if 0 ≤ d.exponent then ds ++ List.replicate d.exponent.toNat '0'
  else
    let places := (-d.exponent).toNat
    if places < ds.length then ds.take (ds.length - places) ++ '.' :: ds.drop (ds.length - places)
    else '0' :: '.' :: List.replicate (places - ds.length) '0' ++ ds

end Decimal

/-- The text of a binary number. -/
def Binary.text {f : Format} (x : Binary f) : String :=
  let signed (negative : Bool) (chars : List Char) : String :=
    String.ofList (if negative then '-' :: chars else chars)
  match x.datum with
  | .nan => "NaN"
  | .infinite negative => signed negative "inf".toList
  | .finite negative 0 _ => signed negative ['0']
  | .finite negative significand exponent =>
    signed negative (Decimal.shortest f significand exponent).chars

end FieldBinding.Numeral
