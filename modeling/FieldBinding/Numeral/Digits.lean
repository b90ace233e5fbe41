/-!
# Decimal digits

Numbers in the decimal system as lists of digit characters.  `Numeral.value?` reads a non-empty run of the
digits `0` to `9`; `Numeral.canonical?` reads the one spelling of a number that has no superfluous zero in
front, bounded by the greatest index that a position can have.  `Numeral.integer?` reads an integer with an
optional sign.
-/

namespace FieldBinding.Numeral

-- Powers are those of the core library, whatever other instances are in sight.
attribute [local instance (2000)] instPowNat

/-- The digits of a natural number, most significant first. -/
def digits (n : Nat) : List Char :=
  Nat.toDigits 10 n

/-- The decimal text of a natural number. -/
def text (n : Nat) : String :=
  String.ofList (digits n)

/-- The decimal text of an integer, with a sign in front of a negative one. -/
def signedText (i : Int) : String :=
  String.ofList (if i < 0 then '-' :: digits i.natAbs else digits i.natAbs)

/-- The decimal digits of a number, padded with zeros in front to the given width. -/
def padded (width n : Nat) : List Char :=
  List.replicate (width - (digits n).length) '0' ++ digits n

/-- The number that a digit stands for. -/
def digitValue (c : Char) : Nat :=
  c.toNat - '0'.toNat

/-- The number that a run of digits stands for; characters are taken for digits unseen. -/
def value (cs : List Char) : Nat :=
  cs.foldl (fun n c => 10 * n + digitValue c) 0

/-- The number written by a non-empty run of digits. -/
def value? (cs : List Char) : Option Nat :=
  if !cs.isEmpty && cs.all Char.isDigit then some (value cs) else none

/-- The greatest number that can stand as an index. -/
def indexMax : Nat :=
  2 ^ (64 : Nat) - 1

/-- The index written by a run of digits without a superfluous leading zero. -/
def canonical? (cs : List Char) : Option Nat :=
  match cs with
  | '0' :: _ :: _ => none
  | _ => (value? cs).filter (· ≤ indexMax)

/-- The integer written by digits behind an optional sign. -/
def integer? : List Char → Option Int
  | '+' :: cs => (value? cs).map Int.ofNat
  | '-' :: cs => (value? cs).map fun n => -(n : Int)
  | cs => (value? cs).map Int.ofNat

theorem value_append_singleton (cs : List Char) (c : Char) :
    value (cs ++ [c]) = 10 * value cs + digitValue c := by
  simp [value]

end FieldBinding.Numeral
