import FieldBinding.Proofs.Numeral.Shortest
import FieldBinding.Proofs.Numeral.Truncation

/-!
# Decimal texts and what is read from them

A decimal text is a row of digits, possibly with a point and more digits behind it, and possibly with a sign in front.
It stands for a rational number.  The text is read as an integer if it has no point, and the number that is nearest to
it is that of its digits divided by a power of ten.  Neither depends on how long the text is.

Main results:

* `Literal.toBinary_decimal` — a written number is the nearest binary number, whatever its order is.
* `DecimalText.integer?_chars`, `DecimalText.read?_chars` — what is read from a decimal text.
* `DecimalText.truncated_eq` — the digits in front of the point are the number cut off toward zero.
-/

namespace FieldBinding.Numeral

-- Powers are those of the core library, whatever other instances are in sight.
attribute [local instance (2000)] instPowNat

/-! ## The order of a number -/

theorem value_lt {cs : List Char} (all : ∀ c ∈ cs, c.isDigit) : value cs < 10 ^ cs.length := by
  induction cs using List.reverseRecOn with
  | nil => decide
  | append_singleton cs c ih =>
    have front := ih fun d hd => all d (List.mem_append_left _ hd)
    have last := digitValue_lt (all c (by simp))
    rw [value_append_singleton, List.length_append, List.length_singleton, Nat.pow_succ]
    omega

/-- A number lies between the powers of ten that its digits count. -/
theorem digits_bounds {n : Nat} (positive : 0 < n) :
    10 ^ ((digits n).length - 1) ≤ n ∧ n < 10 ^ (digits n).length := by
  have upper : value (digits n) < 10 ^ (digits n).length := value_lt fun c hc => isDigit_of_mem_digits hc
  rw [value_digits] at upper
  refine ⟨?_, upper⟩
  by_contra less
  have some' : 0 < (digits n).length := List.length_pos_iff.2 (digits_ne_nil n)
  rcases Nat.eq_zero_or_pos ((digits n).length - 1) with one | more
  · rw [one] at less
    omega
  · have := length_digits_le more (not_le.1 less)
    omega

namespace Literal

open Binary

variable {f : Format}

/-- The quotient that stands for a written number. -/
theorem quotient_eq (n : Nat) (exponent : Int) :
    ((n * 10 ^ exponent.toNat : Nat) / (10 ^ (-exponent).toNat : Nat) : ℚ) = n * 10 ^ exponent := by
  rw [zpow_eq_div]
  push_cast
  ring

/-- A written number lies between the powers of ten of its order. -/
theorem order_bounds {n : Nat} (positive : 0 < n) (exponent : Int) :
    (10 : ℚ) ^ (exponent + (digits n).length - 1) ≤ n * 10 ^ exponent ∧
      (n * 10 ^ exponent : ℚ) < 10 ^ (exponent + (digits n).length) := by
  obtain ⟨lower, upper⟩ := digits_bounds positive
  have some' : 0 < (digits n).length := List.length_pos_iff.2 (digits_ne_nil n)
  have lower : (10 : ℚ) ^ ((digits n).length - 1) ≤ n := by exact_mod_cast lower
  have upper : (n : ℚ) < 10 ^ (digits n).length := by exact_mod_cast upper
  have shift : exponent + (digits n).length - 1 = ((digits n).length - 1 : Nat) + exponent := by omega
  constructor
  · rw [shift, zpow_add₀ (by norm_num), zpow_natCast]
    gcongr
  · rw [add_comm, zpow_add₀ (by norm_num), zpow_natCast]
    gcongr

/-- A number below half of the least one is rounded to zero. -/
theorem roundedMagnitude_tiny {num den : Nat} (hden : 0 < den)
    (tiny : (num / den : ℚ) ≤ 2 ^ (f.leastExponent - 1)) : roundedMagnitude f num den = 0 := by
  have zero : parts f 0 = (0, f.leastExponent) := by simp [parts]
  have reach := reachBelow_pos f 0
  have unit : (0 : ℚ) < 2 ^ f.leastExponent := by positivity
  refine roundedMagnitude_eq hden (Nat.zero_le _) ⟨?_, ?_, ?_⟩ <;> simp only [zero]
  · have below : ((0 : Nat) - reachBelow f 0) * (2 : ℚ) ^ f.leastExponent ≤ 0 :=
      mul_nonpos_of_nonpos_of_nonneg (by simpa using reach.le) unit.le
    exact below.trans (by positivity)
  · rw [zpow_sub_one₀ two_ne_zero] at tiny
    linarith
  · omega

/-- A written number is the nearest binary number: where the order of the number is not computed any further, the
nearest number is zero or infinite. -/
theorem toBinary_decimal (hf : 2 ≤ f.precision) (he : 0 < f.exponentBits) (negative : Bool) (n : Nat) (exponent : Int) :
    (decimal negative n exponent).toBinary =
      (Binary.round negative (n * 10 ^ exponent.toNat) (10 ^ (-exponent).toNat) : Binary f) := by
  have hden : 0 < 10 ^ (-exponent).toNat := Nat.pow_pos (by decide)
  have twice : (2 : Int) ^ f.exponentBits = 2 * 2 ^ (f.exponentBits - 1) := by
    rw [← Int.pow_succ', Nat.sub_add_cancel he]
  have fraction : (f.fractionBits : Int) = f.precision - 1 := by
    unfold Format.fractionBits
    omega
  have least : f.leastExponent = 2 - 2 ^ (f.exponentBits - 1) - f.fractionBits := rfl
  have half : (0 : Int) < 2 ^ (f.exponentBits - 1) := Int.pow_pos (by decide)
  rcases Nat.eq_zero_or_pos n with rfl | positive
  · simp [toBinary, Binary.round, roundedMagnitude]
  obtain ⟨lower, upper⟩ := order_bounds positive exponent
  unfold toBinary
  simp only [positive.ne', false_or]
  split
  · next small =>
    rw [Binary.round, roundedMagnitude_tiny hden]
    rw [quotient_eq]
    calc (n * 10 ^ exponent : ℚ) ≤ 10 ^ (exponent + (digits n).length) := upper.le
      _ ≤ 2 ^ (exponent + (digits n).length) := by
        obtain ⟨k, order⟩ : ∃ k : Nat, exponent + (digits n).length = -k :=
          ⟨(-(exponent + (digits n).length)).toNat, by omega⟩
        rw [order, zpow_neg, zpow_neg, zpow_natCast, zpow_natCast]
        gcongr
        norm_num
      _ ≤ 2 ^ (f.leastExponent - 1) := zpow_le_zpow_right₀ (by norm_num) (by omega)
  split
  · next _ large =>
    rw [Binary.round, roundedMagnitude_eq_infinity (Nat.mul_pos positive (Nat.pow_pos (by decide))) hden]
    · rfl
    rw [quotient_eq]
    calc (2 : ℚ) ^ f.fractionBits * 2 ^ (f.leastExponent + 2 ^ f.exponentBits)
        = 2 ^ (f.fractionBits + (f.leastExponent + 2 ^ f.exponentBits)) := by
          rw [zpow_add₀ two_ne_zero (f.fractionBits : Int), zpow_natCast]
      _ ≤ 2 ^ (exponent + (digits n).length - 1) := zpow_le_zpow_right₀ (by norm_num) (by omega)
      _ ≤ 10 ^ (exponent + (digits n).length - 1) := by
        obtain ⟨k, order⟩ := Int.eq_ofNat_of_zero_le (by omega : 0 ≤ exponent + (digits n).length - 1)
        rw [order, zpow_natCast, zpow_natCast]
        gcongr
        norm_num
      _ ≤ n * 10 ^ exponent := lower
  · rfl

end Literal

/-- A digit has no other case. -/
theorem toLower_of_isDigit {c : Char} (digit : c.isDigit) : c.toLower = c := by
  have bounds : 48 ≤ c.toNat ∧ c.toNat ≤ 57 := by
    simpa [Char.isDigit, UInt32.le_iff_toNat_le] using digit
  have letter : ¬(c.val ≥ 'A'.val ∧ c.val ≤ 'Z'.val) := by
    simp only [ge_iff_le, UInt32.le_iff_toNat_le, Char.reduceVal, UInt32.reduceToNat]
    change ¬(65 ≤ c.toNat ∧ c.toNat ≤ 90)
    omega
  exact dif_neg letter

/-! ## Decimal texts -/

/-- A text of digits, with a sign in front of them or without, and with a point and more digits behind them or
without. -/
structure DecimalText where
  /-- Whether the sign is negative, if there is one. -/
  sign : Option Bool
  whole : List Char
  /-- The digits behind the point; where there is no point there are none. -/
  places : List Char
  whole_ne_nil : whole ≠ [] := by decide
  all_whole : whole.all Char.isDigit = true := by decide
  all_places : places.all Char.isDigit = true := by decide

namespace DecimalText

variable (t : DecimalText)

theorem isDigit_whole : ∀ c ∈ t.whole, c.isDigit :=
  List.all_eq_true.1 t.all_whole

theorem isDigit_places : ∀ c ∈ t.places, c.isDigit :=
  List.all_eq_true.1 t.all_places

/-- The text behind the sign. -/
def unsigned : List Char :=
  if t.places = [] then t.whole else t.whole ++ '.' :: t.places

/-- The characters of the text. -/
def chars : List Char :=
  match t.sign with
  | none => t.unsigned
  | some false => '+' :: t.unsigned
  | some true => '-' :: t.unsigned

/-- Whether the number has a negative sign. -/
def isNegative : Bool :=
  t.sign = some true

/-- The number without its sign: what is in front of the point and what is behind it. -/
def magnitude : ℚ :=
  value t.whole + value t.places / 10 ^ t.places.length

/-- The number that the text stands for. -/
def rational : ℚ :=
  if t.isNegative then -t.magnitude else t.magnitude

/-- The number cut off toward zero. -/
def truncated : Int :=
  if t.rational < 0 then ⌈t.rational⌉ else ⌊t.rational⌋

/-- All digits, as one number. -/
def significand : Nat :=
  value (t.whole ++ t.places)

theorem magnitude_eq : t.magnitude = (t.significand : ℚ) / (10 ^ t.places.length : Nat) := by
  rw [significand, value_append, magnitude]
  push_cast
  field_simp

/-- What is behind the point is less than one. -/
theorem significand_div : t.significand / 10 ^ t.places.length = value t.whole := by
  rw [significand, value_append, Nat.add_comm, Nat.add_mul_div_right _ _ (Nat.pow_pos (by decide)),
    Nat.div_eq_of_lt (value_lt t.isDigit_places), Nat.zero_add]

theorem floor_magnitude : ⌊t.magnitude⌋₊ = value t.whole := by
  rw [magnitude_eq, Nat.floor_div_eq_div, significand_div]

theorem magnitude_nonneg : 0 ≤ t.magnitude := by
  unfold magnitude
  positivity

/-- The digits in front of the point are the number cut off toward zero. -/
theorem truncated_eq : t.truncated = if t.isNegative then -(value t.whole : Int) else value t.whole := by
  have floor : ⌊t.magnitude⌋ = value t.whole := by
    rw [← t.floor_magnitude, Int.natCast_floor_eq_floor t.magnitude_nonneg]
  unfold truncated rational
  by_cases negative : t.isNegative = true
  · rw [if_pos negative, if_pos negative]
    split
    · rw [Int.ceil_neg, floor]
    · next zero =>
      have none' : t.magnitude = 0 := le_antisymm (by linarith) t.magnitude_nonneg
      rw [none', Int.floor_zero] at floor
      rw [none', neg_zero, Int.floor_zero, ← floor, neg_zero]
  · rw [if_neg negative, if_neg negative, if_neg (not_lt.2 t.magnitude_nonneg), floor]

/-! ## Reading decimal texts -/

/-- A decimal text begins with a digit, once the sign is off. -/
theorem exists_digit : ∃ c rest, c.isDigit ∧ t.unsigned = c :: rest := by
  obtain ⟨c, rest, whole⟩ := List.exists_cons_of_ne_nil t.whole_ne_nil
  have digit := t.isDigit_whole c (by simp [whole])
  unfold unsigned
  split
  · exact ⟨c, rest, digit, whole⟩
  · exact ⟨c, _, digit, by rw [whole, List.cons_append]⟩

theorem value?_unsigned : value? t.unsigned = if t.places = [] then some (value t.whole) else none := by
  unfold unsigned
  split
  · exact value?_eq_some_iff.2 ⟨⟨t.whole_ne_nil, t.isDigit_whole⟩, rfl⟩
  · have point : ¬(t.whole ++ '.' :: t.places).all Char.isDigit := by
      rw [List.all_eq_true]
      exact fun all => absurd (all '.' (by simp)) (by decide)
    simp [value?, point]

/-- A decimal text is an integer if it has no point. -/
theorem integer?_chars : integer? t.chars = if t.places = [] then some t.truncated else none := by
  obtain ⟨c, rest, digit, front⟩ := t.exists_digit
  have read : integer? t.unsigned = (value? t.unsigned).map Int.ofNat := by
    rw [front, integer?]
    · rintro cs ⟨⟩
      exact absurd digit (by decide)
    · rintro cs ⟨⟩
      exact absurd digit (by decide)
  rw [truncated_eq, chars, isNegative]
  rcases t.sign with _ | _ | _
  · rw [read, value?_unsigned]
    split <;> rfl
  · rw [integer?, value?_unsigned]
    split <;> rfl
  · rw [integer?, value?_unsigned]
    split <;> rfl

theorem mantissa?_unsigned :
    Literal.mantissa? t.unsigned = some (t.significand, -(t.places.length : Int)) := by
  have all : ∀ c ∈ t.whole ++ t.places, c.isDigit := fun c hc =>
    (List.mem_append.1 hc).elim (t.isDigit_whole c) (t.isDigit_places c)
  have read : value? (t.whole ++ t.places) = some t.significand :=
    value?_eq_some_iff.2 ⟨⟨List.append_ne_nil_of_left_ne_nil t.whole_ne_nil _, all⟩, rfl⟩
  unfold unsigned
  split
  · next none' =>
    rw [none', List.append_nil] at read
    rw [mantissa?_of_isDigit t.isDigit_whole, read, none']
    rfl
  · rw [mantissa?_of_point t.isDigit_whole t.isDigit_places, read]
    rfl

/-- Neither the power of ten nor one of the words for what is no finite number is written with digits. -/
theorem unsigned?_unsigned (negative : Bool) :
    Literal.unsigned? negative t.unsigned = some (.decimal negative t.significand (-(t.places.length : Int))) := by
  obtain ⟨c, rest, digit, front⟩ := t.exists_digit
  have word : ∀ {d : Char} {w : List Char}, d.isDigit = false →
      String.ofList (t.unsigned.map Char.toLower) ≠ String.ofList (d :: w) := by
    intro d w letter same
    rw [front, List.map_cons, toLower_of_isDigit digit] at same
    obtain ⟨rfl, -⟩ := List.cons.inj (String.ofList_injective same)
    rw [letter] at digit
    cases digit
  have plain : ∀ d ∈ t.unsigned, d.toLower ≠ 'e' := by
    have digits : ∀ d : Char, d.isDigit → d.toLower ≠ 'e' := by
      rintro d digit same
      rw [toLower_of_isDigit digit] at same
      subst same
      cases digit
    intro d mem
    unfold unsigned at mem
    split at mem
    · exact digits d (t.isDigit_whole d mem)
    · rcases List.mem_append.1 mem with front | behind
      · exact digits d (t.isDigit_whole d front)
      · rcases List.mem_cons.1 behind with rfl | place
        · decide
        · exact digits d (t.isDigit_places d place)
  have mantissa : t.unsigned.takeWhile (·.toLower ≠ 'e') = t.unsigned :=
    List.takeWhile_eq_self_iff.2 fun d mem => by simpa using plain d mem
  have power : t.unsigned.dropWhile (·.toLower ≠ 'e') = [] :=
    List.dropWhile_eq_nil_iff.2 fun d mem => by simpa using plain d mem
  have inf : String.ofList (t.unsigned.map Char.toLower) ≠ "inf" := word (by decide)
  have infinity : String.ofList (t.unsigned.map Char.toLower) ≠ "infinity" := word (by decide)
  have nan : String.ofList (t.unsigned.map Char.toLower) ≠ "nan" := word (by decide)
  simp only [Literal.unsigned?, inf, infinity, nan, or_self, if_false, mantissa, power, mantissa?_unsigned]
  simp [Literal.exponent?]

/-- The number of a decimal text is read as it stands there. -/
theorem read?_chars :
    Literal.read? t.chars = some (.decimal t.isNegative t.significand (-(t.places.length : Int))) := by
  obtain ⟨c, rest, digit, front⟩ := t.exists_digit
  have plain : Literal.read? t.unsigned = Literal.unsigned? false t.unsigned := by
    rw [front, Literal.read?]
    · rintro cs ⟨⟩
      exact absurd digit (by decide)
    · rintro cs ⟨⟩
      exact absurd digit (by decide)
  rw [chars, isNegative]
  rcases t.sign with _ | _ | _
  · rw [plain, unsigned?_unsigned]
    rfl
  · rw [Literal.read?, unsigned?_unsigned]
    rfl
  · rw [Literal.read?, unsigned?_unsigned]
    rfl

/-- The nearest number of a format. -/
theorem toBinary_read {f : Format} (hf : 2 ≤ f.precision) (he : 0 < f.exponentBits) :
    (Literal.decimal t.isNegative t.significand (-(t.places.length : Int))).toBinary =
      (Binary.round t.isNegative t.significand (10 ^ t.places.length) : Binary f) := by
  rw [Literal.toBinary_decimal hf he, neg_neg, Int.toNat_natCast, Int.toNat_of_nonpos (by omega), Nat.pow_zero,
    Nat.mul_one]

end DecimalText

end FieldBinding.Numeral
