import FieldBinding.Proofs.Conversion.Whole
import FieldBinding.Proofs.Numeral.DecimalText

/-!
# Integers that are read from decimal texts

An integer is read from the text of an integer, or from that of a decimal number, whose digits behind the point are cut
off.  A text without a point that fits 64 bits is read as it stands.  Every other text is rounded to a binary number
first, and the cut is made afterwards.  That is where digits can be lost: a number just below a whole one is rounded up
to it, and a number of more bits than a significand has becomes another one.

`DecimalText.Safe` lists where this cannot happen, and there the conversion is exact: it succeeds if the kind has room
for the number cut off toward zero, and yields that number.

Main results:

* `DecimalText.safe_of_digits` — a number of up to fifteen digits is safe.
* `DecimalText.cut?_safe` — of a safe text the number in front of the point is read.
* `Graph.convert_decimal` — what decimal texts are converted to.
* `Graph.convert_decimal_rounded` — texts that are not safe.
-/

namespace FieldBinding

-- Powers are those of the core library, whatever other instances are in sight.
attribute [local instance (2000)] instPowNat

open Numeral

/-! ## Where rounding is safe -/

namespace Numeral.DecimalText

/-- Whether a decimal text is that of an integer of 64 bits. -/
def IsLong (t : DecimalText) : Prop :=
  t.places = [] ∧ IntegerKind.long.least ≤ t.truncated ∧ t.truncated ≤ IntegerKind.long.greatest

instance (t : DecimalText) : Decidable t.IsLong :=
  inferInstanceAs (Decidable (_ ∧ _))

/-- The binary number of 64 bits that is nearest to a decimal text. -/
def nearest (t : DecimalText) : Double :=
  .round t.isNegative t.significand (10 ^ t.places.length)

/-- The integer that is read from a decimal text: an integer of 64 bits as it stands, and otherwise the nearest number,
cut off. -/
def cut? (t : DecimalText) : Option Int :=
  if t.IsLong then some t.truncated else t.nearest.truncate?

/-- Whether a decimal text can be rounded to a binary number of 64 bits and cut off to an integer of a kind as if it
had not been rounded. -/
inductive Safe (t : DecimalText) (kind : IntegerKind) : Prop where
  /-- An integer of 64 bits is not rounded at all. -/
  | long (whole : t.IsLong)
  /-- A whole number that the format can hold is not rounded either. -/
  | held (a k : Nat) (fits : a < 2 ^ 53) (few : k ≤ 11) (same : t.magnitude = (a * 2 ^ k : Nat))
  /-- The next whole number is out of reach: rounding adds at most one part in `2 ^ 53`. -/
  | clear (apart : ∀ i : Nat, t.magnitude < i → t.magnitude + t.magnitude / 2 ^ 53 < i)
  /-- Whatever is too great stays too great. -/
  | above (more : kind.greatest < t.truncated)
  /-- Whatever is too small stays too small, since the next integer below the least one is a binary number. -/
  | below (narrow : kind ≠ .long) (less : t.truncated < kind.least)
  /-- The next binary number below the least integer of 64 bits is farther away. -/
  | farBelow (less : t.truncated ≤ IntegerKind.long.least - 2 ^ 11)

/-- A number of few digits is far enough from the next whole number. -/
theorem safe_of_digits {t : DecimalText} (few : t.significand < 2 ^ 53) (kind : IntegerKind) : t.Safe kind := by
  refine .clear fun i less => ?_
  have scale : (0 : ℚ) < (10 ^ t.places.length : Nat) := by positivity
  rw [magnitude_eq, div_lt_iff₀ scale] at less
  have next : t.significand + 1 ≤ i * 10 ^ t.places.length := by exact_mod_cast less
  have next : (t.significand + 1 : ℚ) ≤ i * (10 ^ t.places.length : Nat) := by exact_mod_cast next
  have few : (t.significand : ℚ) / 2 ^ 53 < 1 := by
    rw [div_lt_one (by positivity)]
    exact_mod_cast few
  rw [magnitude_eq, div_right_comm, ← add_div, div_lt_iff₀ scale]
  linarith

end Numeral.DecimalText

/-! ## Cutting off -/

/-- The whole number that a number is cut off to. -/
def Number.whole? : Number → Option Int
  | .whole i => some i
  | .floating x => x.truncate?

namespace Conversion

/-- The whole number that a number is cut off to is taken if it is in the range. -/
theorem wholeIn_eq_ok_iff {n : Number} {target : PrimitiveKind} {least greatest i : Int} :
    wholeIn n target least greatest = .ok i ↔ n.whole? = some i ∧ least ≤ i ∧ i ≤ greatest := by
  have kept : n.whole?.filter (fun j => decide (least ≤ j ∧ j ≤ greatest)) = some i ↔
      n.whole? = some i ∧ least ≤ i ∧ i ≤ greatest := by
    rw [Option.filter_eq_some_iff, decide_eq_true_iff]
  rw [← kept]
  unfold wholeIn
  simp only
  constructor
  · intro made
    split at made
    · next j whole =>
      cases made
      exact whole
    · cases made
  · intro whole
    split
    · next j whole' => exact congrArg Except.ok (Option.some.inj (whole'.symm.trans whole))
    · next none' => exact absurd (none'.symm.trans whole) (by simp)

/-- A number becomes the integer that it is cut off to, if the kind has room for it. -/
theorem ofNumber_integer_iff {n : Number} {kind : IntegerKind} {a : Scalar} :
    ofNumber (.integer kind) n = .ok a ↔ ∃ i : Bounded kind, n.whole? = some i.toInt ∧ a = .integer kind i := by
  constructor
  · intro made
    cases whole : wholeIn n (.integer kind) kind.least kind.greatest with
    | error fault =>
      simp only [ofNumber, whole] at made
      cases made
    | ok i =>
      obtain ⟨cut, fits⟩ := wholeIn_eq_ok_iff.1 whole
      simp only [ofNumber, whole, Bounded.of?, dif_pos fits] at made
      cases made
      exact ⟨⟨i, fits⟩, cut, rfl⟩
  · rintro ⟨⟨i, fits⟩, cut, rfl⟩
    simp only [ofNumber, wholeIn_eq_ok_iff.2 ⟨cut, fits⟩, Bounded.of?, dif_pos fits]

/-- Only an integer of 64 bits is read as one. -/
theorem long?_decimal (t : DecimalText) : long? t.chars = if t.IsLong then some t.truncated else none := by
  have least : IntegerKind.long.least = -9223372036854775808 := rfl
  have greatest : IntegerKind.long.greatest = 9223372036854775807 := rfl
  rw [long?, t.integer?_chars]
  by_cases whole : t.places = []
  · have fits : t.IsLong ↔ -2 ^ (63 : Nat) ≤ t.truncated ∧ t.truncated < 2 ^ (63 : Nat) := by
      unfold DecimalText.IsLong
      rw [least, greatest]
      simp only [whole, true_and]
      omega
    simp only [if_pos whole, Option.filter_some, fits, decide_eq_true_eq]
  · have point : ¬t.IsLong := fun h => whole h.1
    rw [if_neg whole, if_neg point, Option.filter_none]

/-- The number that is read from a decimal text. -/
theorem readNumber_decimal (t : DecimalText) (target : PrimitiveKind) :
    readNumber target (String.ofList t.chars) =
      if t.IsLong then .ok (.whole t.truncated)
      else if t.nearest.isFinite then .ok (.floating t.nearest)
      else .error (.notNumber (String.ofList t.chars) target) := by
  have double : readDouble target (String.ofList t.chars) = .ok t.nearest := by
    have nearest := t.toBinary_read (f := Numeral.double) (by decide) (by decide)
    simp only [readDouble, String.toList_ofList, t.read?_chars, nearest]
    rfl
  unfold readNumber
  rw [String.toList_ofList, long?_decimal, double]
  by_cases whole : t.IsLong
  · rw [if_pos whole, if_pos whole]
  · rw [if_neg whole, if_neg whole]
    rfl

/-- What is read from a decimal text. -/
theorem textToPrimitive_decimal {t : DecimalText} {text : String} (written : Text.trimmed text = String.ofList t.chars)
    (kind : IntegerKind) (a : Scalar) :
    textToPrimitive (.integer kind) (.scalar (.string text)) = .ok a ↔
      ∃ i : Bounded kind, t.cut? = some i.toInt ∧ a = .integer kind i := by
  have steps : textToPrimitive (.integer kind) (.scalar (.string text)) =
      readNumber (.integer kind) (String.ofList t.chars) >>= ofNumber (.integer kind) := by
    simp only [textToPrimitive, trimmedText, written]
    rfl
  have becomes {n : Number} (read : readNumber (.integer kind) (String.ofList t.chars) = .ok n)
      (cut : t.cut? = n.whole?) :
      textToPrimitive (.integer kind) (.scalar (.string text)) = .ok a ↔
        ∃ i : Bounded kind, t.cut? = some i.toInt ∧ a = .integer kind i := by
    rw [steps, read, cut]
    exact ofNumber_integer_iff
  have read := readNumber_decimal t (.integer kind)
  by_cases whole : t.IsLong
  · rw [if_pos whole] at read
    exact becomes read (if_pos whole)
  have cut : t.cut? = t.nearest.truncate? := if_neg whole
  rw [if_neg whole] at read
  by_cases finite : t.nearest.isFinite = true
  · rw [if_pos finite] at read
    exact becomes read cut
  · rw [if_neg finite] at read
    rw [steps, read, cut, Binary.truncate?_of_not_isFinite finite]
    constructor
    · rintro ⟨⟩
    · rintro ⟨_, ⟨⟩, -⟩

end Conversion

/-! ## Cutting off the nearest number -/

namespace Numeral.DecimalText

variable {t : DecimalText} {kind : IntegerKind} {i : Int}

/-- The nearest number is cut off to what is in front of the point if its whole part is the same. -/
theorem nearest_cut (finite : Binary.roundedMagnitude double t.significand (10 ^ t.places.length) < double.infinity)
    (floor : ⌊Binary.rational double (Binary.roundedMagnitude double t.significand (10 ^ t.places.length))⌋₊ =
      value t.whole) :
    t.nearest.truncate? = some t.truncated := by
  obtain ⟨finite_iff, cut⟩ := Binary.truncate?_round (by decide : 0 < double.precision) t.isNegative t.significand
    (10 ^ t.places.length)
  refine (cut (finite_iff.2 finite)).trans ?_
  rw [floor, t.truncated_eq]

/-- So it is where the next whole number is out of reach. -/
theorem nearest_clear (apart : ∀ i : Nat, t.magnitude < i → t.magnitude + t.magnitude / 2 ^ 53 < i) :
    t.nearest.truncate? = some t.truncated := by
  rw [t.magnitude_eq] at apart
  obtain ⟨finite, floor⟩ := Binary.floor_roundedMagnitude (Nat.pow_pos (by decide)) apart
  exact nearest_cut finite (floor.trans t.significand_div)

/-- And where the number is a whole one that the format can hold. -/
theorem nearest_held {a k : Nat} (fits : a < 2 ^ 53) (few : k ≤ 11) (same : t.magnitude = (a * 2 ^ k : Nat)) :
    t.nearest.truncate? = some t.truncated := by
  have quotient : (t.significand / (10 ^ t.places.length : Nat) : ℚ) =
      a * 2 ^ (double.leastExponent + (1074 + k : Nat)) := by
    rw [← t.magnitude_eq, same, Binary.natCast_mul_two_pow]
  have room : 1074 + k + 2 ≤ 2 ^ double.exponentBits - 1 := by
    have : 2 ^ double.exponentBits - 1 = 2047 := rfl
    omega
  have small : a < 2 * 2 ^ double.fractionBits := fits
  obtain ⟨finite, value⟩ := Binary.rational_roundedMagnitude (1074 + k) a (Nat.pow_pos (by decide)) small room quotient
  refine nearest_cut finite ?_
  rw [value, ← t.magnitude_eq, t.floor_magnitude]

/-- A whole number that is not greater than what is in front of the point, and that the format can hold, is not greater
than what the nearest number is cut off to. -/
theorem nearest_beyond (cut : t.nearest.truncate? = some i) {a k : Nat} (fits : a ≤ 2 ^ 53)
    (le : a * 2 ^ k ≤ value t.whole) : ∃ m : Nat, a * 2 ^ k ≤ m ∧ i = if t.isNegative then -(m : Int) else m := by
  obtain ⟨finite_iff, outcome⟩ := Binary.truncate?_round (by decide : 0 < double.precision) t.isNegative t.significand
    (10 ^ t.places.length)
  have finite : t.nearest.isFinite = true := by
    by_contra infinite'
    rw [Binary.truncate?_of_not_isFinite infinite'] at cut
    cases cut
  have le : ((a * 2 ^ k : Nat) : ℚ) ≤ t.significand / (10 ^ t.places.length : Nat) := by
    rw [← t.magnitude_eq]
    refine le_trans ?_ (Nat.floor_le t.magnitude_nonneg)
    rw [t.floor_magnitude]
    exact_mod_cast le
  exact ⟨_, Binary.le_floor_roundedMagnitude (Nat.pow_pos (by decide)) (finite_iff.1 finite) fits le,
    Option.some.inj (cut.symm.trans (outcome finite))⟩

/-- Where a kind has no room for a number it has none for the nearest number either. -/
theorem nearest_outside (beyond : kind.greatest < t.truncated ∨ kind ≠ .long ∧ t.truncated < kind.least ∨
    t.truncated ≤ IntegerKind.long.least - 2 ^ 11) (cut : t.nearest.truncate? = some i) :
    ¬(kind.least ≤ i ∧ i ≤ kind.greatest) := by
  have greatest : kind.greatest = (2 ^ (kind.bits - 1) : Nat) - 1 := by
    push_cast
    rfl
  have least : kind.least = -(2 ^ (kind.bits - 1) : Nat) := by
    push_cast
    rfl
  have long : IntegerKind.long.least = -9223372036854775808 := rfl
  have positive : 0 < 2 ^ (kind.bits - 1) := Nat.pow_pos (by decide)
  have within : 2 ^ (kind.bits - 1) ≤ 2 ^ 63 := by cases kind <;> decide
  rw [t.truncated_eq, greatest, least, long] at beyond
  rw [greatest, least]
  by_cases negative : t.isNegative = true
  · rw [if_pos negative] at beyond
    rcases beyond with more | ⟨narrow, less⟩ | less
    · omega
    · have fits : 2 ^ (kind.bits - 1) + 1 ≤ 2 ^ 53 := by
        cases kind <;> first | exact absurd rfl narrow | decide
      obtain ⟨m, le, rfl⟩ := nearest_beyond cut (k := 0) fits (by omega)
      rw [if_pos negative]
      omega
    · obtain ⟨m, le, rfl⟩ := nearest_beyond cut (a := 2 ^ 52 + 1) (k := 11) (by decide) (by omega)
      rw [if_pos negative]
      omega
  · rw [if_neg negative] at beyond
    rcases beyond with more | ⟨narrow, less⟩ | less
    · obtain ⟨m, le, rfl⟩ := nearest_beyond cut (a := 1) (k := kind.bits - 1) (by decide) (by omega)
      rw [if_neg negative]
      omega
    · omega
    · omega

/-- Where rounding is safe, the integer that is read is the number in front of the point, or the kind has room for
neither of them. -/
theorem cut?_safe (safe : t.Safe kind) : t.cut? = some t.truncated ∨
    ¬(kind.least ≤ t.truncated ∧ t.truncated ≤ kind.greatest) ∧
      ∀ i, t.cut? = some i → ¬(kind.least ≤ i ∧ i ≤ kind.greatest) := by
  by_cases whole : t.IsLong
  · exact .inl (if_pos whole)
  have rounded : t.cut? = t.nearest.truncate? := if_neg whole
  rw [rounded]
  cases safe with
  | long integer => exact absurd integer whole
  | held a k fits few same => exact .inl (nearest_held fits few same)
  | clear apart => exact .inl (nearest_clear apart)
  | above more => exact .inr ⟨by omega, fun i => nearest_outside (.inl more)⟩
  | below narrow less => exact .inr ⟨by omega, fun i => nearest_outside (.inr (.inl ⟨narrow, less⟩))⟩
  | farBelow less =>
    refine .inr ⟨fun fits => ?_, fun i => nearest_outside (.inr (.inr less))⟩
    have : IntegerKind.long.least ≤ kind.least := by cases kind <;> decide
    omega

end Numeral.DecimalText

/-! ## Conversions -/

namespace Graph

open Conversion

/-- Decimal texts are converted to integers by cutting them off.  An integer of 64 bits is read as it stands, and of
every other text the nearest binary number is cut off; the conversion succeeds if the kind has room for the result.
Where the rounding is safe that is exact: the conversion succeeds if the kind has room for the number of the text cut
off toward zero, and then it yields that number. -/
theorem convert_decimal (g : Graph) (zone : Zone) {text : String} {t : DecimalText}
    (written : Text.trimmed text = String.ofList t.chars) (kind : IntegerKind) :
    (∀ v, g.convert zone (.scalar (.string text)) none (.scalar (.primitive (.integer kind))) = .ok v ↔
        ∃ i : Bounded kind, t.cut? = some i.toInt ∧ v = .scalar (.integer kind i)) ∧
      (t.Safe kind →
        ((∃ v, g.convert zone (.scalar (.string text)) none (.scalar (.primitive (.integer kind))) = .ok v) ↔
          kind.least ≤ t.truncated ∧ t.truncated ≤ kind.greatest) ∧
        ∀ v, g.convert zone (.scalar (.string text)) none (.scalar (.primitive (.integer kind))) = .ok v →
          ∃ i : Bounded kind, i.toInt = t.truncated ∧ v = .scalar (.integer kind i)) := by
  have becomes : ∀ v, g.convert zone (.scalar (.string text)) none (.scalar (.primitive (.integer kind))) = .ok v ↔
      ∃ i : Bounded kind, t.cut? = some i.toInt ∧ v = .scalar (.integer kind i) := by
    intro v
    rw [convert_ofText]
    constructor
    · intro made
      cases read : textToPrimitive (.integer kind) (.scalar (.string text)) with
      | error fault =>
        rw [read] at made
        cases made
      | ok a =>
        rw [read] at made
        cases made
        obtain ⟨i, cut, rfl⟩ := (textToPrimitive_decimal written kind a).1 read
        exact ⟨i, cut, rfl⟩
    · rintro ⟨i, cut, rfl⟩
      rw [(textToPrimitive_decimal written kind _).2 ⟨i, cut, rfl⟩]
  refine ⟨becomes, fun safe => ?_⟩
  rcases t.cut?_safe safe with exact' | ⟨full, outside⟩
  · simp only [becomes, exact', Option.some.injEq]
    refine ⟨⟨?_, fun fits => ⟨_, ⟨t.truncated, fits⟩, rfl, rfl⟩⟩, ?_⟩
    · rintro ⟨_, i, same, -⟩
      exact same ▸ i.fits
    · rintro v ⟨i, same, rfl⟩
      exact ⟨i, same.symm, rfl⟩
  · refine ⟨⟨?_, fun fits => absurd fits full⟩, fun v made => ?_⟩
    · rintro ⟨v, made⟩
      obtain ⟨i, cut, -⟩ := (becomes v).1 made
      exact absurd i.fits (outside _ cut)
    · obtain ⟨i, cut, -⟩ := (becomes v).1 made
      exact absurd i.fits (outside _ cut)

/-- A number with white space around it. -/
theorem convert_decimal_byte :
    let t : DecimalText := { sign := some true, whole := ['1', '2'], places := ['7', '5'] }
    (Text.trimmed " -12.75 " = String.ofList t.chars ∧ t.Safe .byte ∧ t.truncated = -12) ∧
      empty.convert .utc (.scalar (.string " -12.75 ")) none (.scalar (.primitive (.integer .byte))) =
        .ok (.scalar (.integer .byte ⟨-12, by decide⟩)) := by
  intro t
  have written : Text.trimmed " -12.75 " = String.ofList t.chars := by cbv
  have safe : t.Safe .byte := DecimalText.safe_of_digits (by decide) .byte
  have truncated : t.truncated = -12 := t.truncated_eq
  obtain ⟨succeeds, value⟩ := (convert_decimal empty .utc written .byte).2 safe
  obtain ⟨v, made⟩ := succeeds.2 (truncated ▸ by decide)
  obtain ⟨⟨i, fits⟩, rfl, rfl⟩ := value v made
  refine ⟨⟨written, safe, truncated⟩, made.trans ?_⟩
  simp only [truncated]

/-- Texts for which rounding is not safe.  A number just below a whole one is rounded up to it, and may leave the range
of its kind; a number of more bits than a significand becomes another one; and a number just below the least integer of
64 bits becomes that integer. -/
theorem convert_decimal_rounded :
    let near : DecimalText := { sign := none, whole := "127".toList, places := "99999999999999999999".toList }
    let long : DecimalText := { sign := none, whole := "9007199254740993".toList, places := "5".toList }
    let least : DecimalText := { sign := some true, whole := "9223372036854775809".toList, places := [] }
    (Text.trimmed "127.99999999999999999999" = String.ofList near.chars ∧ near.truncated = 127 ∧
        ∃ e, empty.convert .utc (.scalar (.string "127.99999999999999999999")) none
          (.scalar (.primitive (.integer .byte))) = .error e) ∧
      (Text.trimmed "9007199254740993.5" = String.ofList long.chars ∧ long.truncated = 9007199254740993 ∧
        empty.convert .utc (.scalar (.string "9007199254740993.5")) none (.scalar (.primitive (.integer .long))) =
          .ok (.scalar (.integer .long ⟨9007199254740994, by decide⟩))) ∧
      Text.trimmed "-9223372036854775809" = String.ofList least.chars ∧
        least.truncated = IntegerKind.long.least - 1 ∧
        empty.convert .utc (.scalar (.string "-9223372036854775809")) none (.scalar (.primitive (.integer .long))) =
          .ok (.scalar (.integer .long ⟨IntegerKind.long.least, by decide⟩)) := by
  intro near long least
  have near_text : Text.trimmed "127.99999999999999999999" = String.ofList near.chars := rfl
  have long_text : Text.trimmed "9007199254740993.5" = String.ofList long.chars := rfl
  have least_text : Text.trimmed "-9223372036854775809" = String.ofList least.chars := rfl
  have near_number : near.truncated = 127 := near.truncated_eq
  have long_number : long.truncated = 9007199254740993 := long.truncated_eq
  have least_number : least.truncated = IntegerKind.long.least - 1 := least.truncated_eq
  exact ⟨⟨near_text, near_number, _, rfl⟩, ⟨long_text, long_number, rfl⟩, least_text, least_number, rfl⟩

end Graph

end FieldBinding
