import Mathlib.Algebra.Order.Floor.Semifield
import Mathlib.Data.Nat.Cast.Order.Field
import Mathlib.Data.Rat.Floor
import FieldBinding.Proofs.Numeral.Rounding

/-!
# Numbers that are rounded and then cut off

A quotient is rounded to a binary number before the digits behind its point are cut off.  Rounding never passes a
number that the format can hold, so it stays on the same side of every whole number that fits a significand.  But it
may arrive there from below: then the whole number behind the rounding is one more than the one in front of it.  This
cannot happen where the next whole number is farther away than half a unit of the last place.

Main results:

* `Binary.rounds` — what rounding keeps, and how far it goes.
* `Binary.truncate?_eq` — cutting off is the floor of the magnitude.
* `Binary.floor_roundedMagnitude` — where no whole number is near, rounding keeps the whole part.
* `Binary.le_floor_roundedMagnitude` — a quotient that is not below a number of the format is not cut off to less.
-/

namespace FieldBinding.Numeral

-- Powers are those of the core library, whatever other instances are in sight.
attribute [local instance (2000)] instPowNat

namespace Binary

variable {f : Format} {num den : Nat}

/-! ## Rounding to a whole number -/

theorem roundHalfEven_bounds (n d : Nat) :
    n / d ≤ roundHalfEven n d ∧ roundHalfEven n d ≤ n / d + 1 ∧ 2 * (roundHalfEven n d * d) ≤ 2 * n + d := by
  have parts := Nat.div_add_mod' n d
  unfold roundHalfEven
  simp only
  split
  · next up =>
    have : d ≤ 2 * (n % d) := by omega
    rw [Nat.add_mul, Nat.one_mul]
    omega
  · omega

/-! ## What rounding does to a number -/

/-- A number is rounded to another: the numbers that a format can hold stay below it, and it grows by no more than half
a unit of its last place, unless it is one of the least numbers. -/
structure Rounds (f : Format) (q v : ℚ) : Prop where
  low : ∀ a b : Nat, a ≤ 2 * 2 ^ f.fractionBits → a * (2 : ℚ) ^ (f.leastExponent + b) ≤ q →
    a * (2 : ℚ) ^ (f.leastExponent + b) ≤ v
  high : v ≤ q + q / (2 * 2 ^ f.fractionBits) ∨ v ≤ 2 * 2 ^ f.fractionBits * (2 : ℚ) ^ f.leastExponent

/-- Steps and a significand with at most one bit too many stand for their product. -/
theorem rational_steps (steps : Nat) {m : Nat} (small : m ≤ 2 * 2 ^ f.fractionBits)
    (leading : 0 < steps → 2 ^ f.fractionBits ≤ m) :
    rational f (steps * 2 ^ f.fractionBits + m) = m * 2 ^ (f.leastExponent + steps) := by
  rcases small.lt_or_eq with less | rfl
  · rw [rational, parts_eq steps less leading]
  · -- the next power of two is a significand of one step more
    have positive : 0 < 2 ^ f.fractionBits := Nat.pow_pos (by decide)
    have carried : steps * 2 ^ f.fractionBits + 2 * 2 ^ f.fractionBits =
        (steps + 1) * 2 ^ f.fractionBits + 2 ^ f.fractionBits := by ring
    rw [carried, rational, parts_eq (steps + 1) (by omega) fun _ => le_rfl, Nat.cast_succ, ← add_assoc,
      zpow_add_one₀ two_ne_zero]
    push_cast
    ring

/-- The exponent and the significand that a quotient is rounded to. -/
theorem roundedMagnitude_spec (f : Format) (hnum : 0 < num) (hden : 0 < den) : ∃ steps m : Nat,
    roundedMagnitude f num den = min f.infinity (steps * 2 ^ f.fractionBits + m) ∧
      rational f (steps * 2 ^ f.fractionBits + m) = m * 2 ^ (f.leastExponent + steps) ∧
      m ≤ 2 * 2 ^ f.fractionBits ∧
      (∀ a : Nat, a * (2 : ℚ) ^ (f.leastExponent + steps) ≤ num / den → a ≤ m) ∧
      m * (2 : ℚ) ^ (f.leastExponent + steps) ≤ num / den + 2 ^ (f.leastExponent + steps) / 2 ∧
      (0 < steps → 2 ^ f.fractionBits * (2 : ℚ) ^ (f.leastExponent + steps) ≤ num / den) := by
  obtain ⟨below, above⟩ := binaryExponent_spec hnum hden
  obtain ⟨steps, exponent⟩ : ∃ steps : Nat,
      max f.leastExponent (binaryExponent num den - f.fractionBits) = f.leastExponent + steps :=
    ⟨(max f.leastExponent (binaryExponent num den - f.fractionBits) - f.leastExponent).toNat, by omega⟩
  let n := (scaled num den (f.leastExponent + steps)).1
  let d := (scaled num den (f.leastExponent + steps)).2
  have unit : (0 : ℚ) < 2 ^ (f.leastExponent + steps) := by positivity
  have d_pos : 0 < d := scaled_snd_pos _ hden
  have d_pos' : (0 : ℚ) < d := by exact_mod_cast d_pos
  have quotient : (num / den : ℚ) = n / d * 2 ^ (f.leastExponent + steps) := by
    rw [scaled_div, div_mul_cancel₀ _ unit.ne']
  obtain ⟨floor, ceil, half⟩ := roundHalfEven_bounds n d
  have taken : ∀ a : Nat, a * (2 : ℚ) ^ (f.leastExponent + steps) ≤ num / den → a ≤ roundHalfEven n d := by
    intro a le
    rw [quotient, mul_le_mul_iff_left₀ unit, le_div_iff₀ d_pos'] at le
    exact ((Nat.le_div_iff_mul_le d_pos).2 (by exact_mod_cast le)).trans floor
  have first : 0 < steps → 2 ^ f.fractionBits * (2 : ℚ) ^ (f.leastExponent + steps) ≤ num / den := by
    intro some'
    refine le_of_eq_of_le ?_ below
    rw [← zpow_natCast, ← zpow_add₀ two_ne_zero]
    congr 1
    omega
  have leading : 0 < steps → 2 ^ f.fractionBits ≤ roundHalfEven n d := fun some' =>
    taken _ (by exact_mod_cast first some')
  have small : roundHalfEven n d ≤ 2 * 2 ^ f.fractionBits := by
    have last : (2 : ℚ) ^ (binaryExponent num den + 1) ≤
        (2 * 2 ^ f.fractionBits : Nat) * 2 ^ (f.leastExponent + steps) := by
      rw [← pow_succ', Nat.cast_pow, ← zpow_natCast, Nat.cast_ofNat, ← zpow_add₀ two_ne_zero]
      exact zpow_le_zpow_right₀ (by norm_num) (by push_cast; omega)
    have less := above.trans_le last
    rw [quotient, mul_lt_mul_iff_left₀ unit, div_lt_iff₀ d_pos'] at less
    have less : n / d < 2 * 2 ^ f.fractionBits := Nat.div_lt_of_lt_mul (by rw [mul_comm]; exact_mod_cast less)
    omega
  refine ⟨steps, roundHalfEven n d, roundedMagnitude_of _ hnum.ne' exponent rfl, rational_steps steps small leading,
    small, taken, ?_, first⟩
  have half : (2 * (roundHalfEven n d * d) : ℚ) ≤ 2 * n + d := by exact_mod_cast half
  have half : (roundHalfEven n d : ℚ) ≤ n / d + 1 / 2 := by
    rw [div_add_div _ _ d_pos'.ne' two_ne_zero, le_div_iff₀ (by positivity)]
    linarith
  calc (roundHalfEven n d : ℚ) * 2 ^ (f.leastExponent + steps)
      ≤ (n / d + 1 / 2) * 2 ^ (f.leastExponent + steps) := by gcongr
    _ = num / den + 2 ^ (f.leastExponent + steps) / 2 := by
      rw [quotient]
      ring

/-- Rounding to a finite number. -/
theorem rounds (hnum : 0 < num) (hden : 0 < den) (finite : roundedMagnitude f num den < f.infinity) :
    Rounds f (num / den) (rational f (roundedMagnitude f num den)) := by
  obtain ⟨steps, m, rounded, value, small, taken, half, first⟩ := roundedMagnitude_spec f hnum hden
  have unit : (0 : ℚ) < 2 ^ (f.leastExponent + steps) := by positivity
  have within : roundedMagnitude f num den = steps * 2 ^ f.fractionBits + m := by omega
  rw [within, value]
  refine ⟨fun a b fits le => ?_, ?_⟩
  · by_cases fine : steps ≤ b
    · -- on a grid that is not coarser the number is a multiple of the unit
      obtain ⟨k, rfl⟩ := Nat.exists_eq_add_of_le fine
      have multiple : a * (2 : ℚ) ^ (f.leastExponent + (steps + k : Nat)) =
          (a * 2 ^ k : Nat) * 2 ^ (f.leastExponent + steps) := by
        rw [Nat.cast_add, ← add_assoc, zpow_add₀ two_ne_zero, zpow_natCast]
        push_cast
        ring
      rw [multiple] at le ⊢
      have := taken _ le
      gcongr
    · have leading : 2 ^ f.fractionBits ≤ m := taken _ (by exact_mod_cast first (by omega))
      calc a * (2 : ℚ) ^ (f.leastExponent + b)
          ≤ (2 * 2 ^ f.fractionBits : Nat) * 2 ^ (f.leastExponent + b) := by gcongr
        _ = (2 ^ f.fractionBits : Nat) * 2 ^ (f.leastExponent + b + 1) := by
          rw [zpow_add_one₀ two_ne_zero]
          push_cast
          ring
        _ ≤ m * 2 ^ (f.leastExponent + steps) :=
          mul_le_mul (by exact_mod_cast leading) (zpow_le_zpow_right₀ (by norm_num) (by omega)) (by positivity)
            (by positivity)
  · rcases Nat.eq_zero_or_pos steps with rfl | some'
    · refine .inr ?_
      rw [Nat.cast_zero, add_zero]
      gcongr
      exact_mod_cast small
    · refine .inl (half.trans ?_)
      have positive : (0 : ℚ) < 2 ^ f.fractionBits := by positivity
      have := first some'
      refine add_le_add le_rfl ?_
      rw [div_le_div_iff₀ two_pos (by positivity)]
      linarith

/-- A quotient is rounded to a finite number if its exponent is not too large. -/
theorem roundedMagnitude_lt (hnum : 0 < num) (hden : 0 < den) {b : Nat}
    (less : (num / den : ℚ) < 2 ^ f.fractionBits * 2 ^ (f.leastExponent + b)) (room : b + 3 ≤ 2 ^ f.exponentBits - 1) :
    roundedMagnitude f num den < f.infinity := by
  obtain ⟨steps, m, rounded, -, small, -, -, first⟩ := roundedMagnitude_spec f hnum hden
  have steps_le : steps ≤ b := by
    by_contra more
    have lower := (first (by omega)).trans_lt less
    rw [mul_lt_mul_iff_right₀ (by positivity)] at lower
    have := (zpow_lt_zpow_iff_right₀ (by norm_num : (1 : ℚ) < 2)).1 lower
    omega
  have positive : 0 < 2 ^ f.fractionBits := Nat.pow_pos (by decide)
  have infinity : (b + 3) * 2 ^ f.fractionBits ≤ f.infinity := Nat.mul_le_mul_right _ room
  have front : steps * 2 ^ f.fractionBits ≤ b * 2 ^ f.fractionBits := Nat.mul_le_mul_right _ steps_le
  rw [Nat.add_mul] at infinity
  omega

/-- A quotient beyond the greatest exponent is rounded to infinity. -/
theorem roundedMagnitude_eq_infinity (hnum : 0 < num) (hden : 0 < den)
    (more : 2 ^ f.fractionBits * (2 : ℚ) ^ (f.leastExponent + 2 ^ f.exponentBits) ≤ num / den) :
    roundedMagnitude f num den = f.infinity := by
  obtain ⟨steps, m, rounded, -, small, taken, -⟩ := roundedMagnitude_spec f hnum hden
  have positive : 0 < 2 ^ f.fractionBits := Nat.pow_pos (by decide)
  have steps_ge : 2 ^ f.exponentBits - 1 ≤ steps := by
    by_contra fewer
    -- the significand would have two bits too many
    have large : 4 * 2 ^ f.fractionBits ≤ m := by
      refine taken _ (le_trans ?_ more)
      have exponent : f.leastExponent + steps + 2 ≤ f.leastExponent + 2 ^ f.exponentBits := by
        have : (2 ^ f.exponentBits : Nat) = (2 : Int) ^ f.exponentBits := by push_cast; rfl
        omega
      calc ((4 * 2 ^ f.fractionBits : Nat) : ℚ) * 2 ^ (f.leastExponent + steps)
          = 2 ^ f.fractionBits * 2 ^ (f.leastExponent + steps + 2) := by
            rw [zpow_add₀ two_ne_zero (_ + _)]
            push_cast
            ring
        _ ≤ 2 ^ f.fractionBits * 2 ^ (f.leastExponent + 2 ^ f.exponentBits) := by
            gcongr
            norm_num
    omega
  have infinity : f.infinity ≤ steps * 2 ^ f.fractionBits := Nat.mul_le_mul_right _ steps_ge
  omega

/-! ## Cutting off -/

/-- Cutting off is the floor of the magnitude. -/
theorem truncate?_eq {x : Binary f} (finite : x.isFinite = true) :
    x.truncate? = some (if x.isNegative then -(⌊rational f x.magnitude⌋₊ : Int) else ⌊rational f x.magnitude⌋₊) := by
  have whole : ⌊rational f x.magnitude⌋₊ = (parts f x.magnitude).1 * 2 ^ (parts f x.magnitude).2.toNat /
      2 ^ (-(parts f x.magnitude).2).toNat := by
    rw [rational, zpow_eq_div, ← mul_div_assoc, ← Nat.floor_div_eq_div (K := ℚ)]
    push_cast
    rfl
  rw [truncate?, datum_of_isFinite finite, whole]

/-- What is not finite is not cut off to anything. -/
theorem truncate?_of_not_isFinite {x : Binary f} (infinite' : ¬ x.isFinite = true) : x.truncate? = none := by
  by_cases number : x.isNaN = true
  · have datum : x.datum = .nan := if_pos (by simpa [isNaN] using number)
    rw [truncate?, datum]
  · rw [truncate?, datum_of_not_isFinite (by simpa using number) infinite']

theorem roundedMagnitude_le (f : Format) (num den : Nat) : roundedMagnitude f num den ≤ f.infinity := by
  unfold roundedMagnitude
  split
  · exact Nat.zero_le _
  · exact Nat.min_le_left _ _

/-- A rounded quotient is finite if its magnitude is, and then it is cut off at the floor of its magnitude. -/
theorem truncate?_round (hf : 0 < f.precision) (negative : Bool) (num den : Nat) :
    ((round negative num den : Binary f).isFinite = true ↔ roundedMagnitude f num den < f.infinity) ∧
      ((round negative num den : Binary f).isFinite = true → (round negative num den : Binary f).truncate? =
        some (if negative then -(⌊rational f (roundedMagnitude f num den)⌋₊ : Int)
          else ⌊rational f (roundedMagnitude f num den)⌋₊)) := by
  have magnitude : (round negative num den : Binary f).magnitude = roundedMagnitude f num den :=
    magnitude_ofMagnitude hf (roundedMagnitude_le f num den)
  have sign : (round negative num den : Binary f).isNegative = negative :=
    isNegative_ofMagnitude hf (roundedMagnitude_le f num den)
  refine ⟨by rw [isFinite, magnitude, decide_eq_true_iff], fun finite => ?_⟩
  rw [truncate?_eq finite, magnitude, sign]

/-- Where no whole number is near above, rounding keeps the whole part of a quotient. -/
theorem floor_roundedMagnitude (hden : 0 < den)
    (clear : ∀ i : Nat, (num / den : ℚ) < i → (num / den + num / den / 2 ^ 53 : ℚ) < i) :
    roundedMagnitude double num den < double.infinity ∧
      ⌊rational double (roundedMagnitude double num den)⌋₊ = num / den := by
  rcases Nat.eq_zero_or_pos num with rfl | hnum
  · have zero : roundedMagnitude double 0 den = 0 := by simp [roundedMagnitude]
    rw [zero, rational_zero, Nat.floor_zero, Nat.zero_div]
    exact ⟨by decide, rfl⟩
  have fraction : double.fractionBits = 52 := rfl
  have least : double.leastExponent = -1074 := rfl
  have floor_le : ((num / den : Nat) : ℚ) ≤ num / den := Nat.cast_div_le
  have lt_next : (num / den : ℚ) < (num / den + 1 : Nat) := by
    rw [Nat.cast_succ, ← Nat.floor_div_eq_div (K := ℚ)]
    exact Nat.lt_floor_add_one _
  have next := clear _ lt_next
  -- from here on the next whole number is always near
  have small : (num / den : ℚ) < 2 ^ 53 := by
    by_contra large
    have near : (1 : ℚ) ≤ num / den / 2 ^ 53 := (one_le_div (by positivity)).2 (not_lt.1 large)
    rw [Nat.cast_succ] at next
    linarith
  have finite : roundedMagnitude double num den < double.infinity := by
    refine roundedMagnitude_lt (b := 1075) hnum hden (small.trans_le ?_) (by decide)
    rw [fraction, least]
    norm_num
  refine ⟨finite, ?_⟩
  obtain ⟨low, high⟩ := rounds hnum hden finite
  rw [Nat.floor_eq_iff (rational_nonneg _ _), ← Nat.cast_succ]
  constructor
  · have unit : ((num / den : Nat) : ℚ) * 2 ^ (double.leastExponent + (1074 : Nat)) = (num / den : Nat) := by
      rw [least]
      norm_num
    have fits : num / den ≤ 2 * 2 ^ double.fractionBits := by
      have := floor_le.trans_lt small
      exact_mod_cast this.le
    have := low (num / den) 1074 fits (by rwa [unit])
    rwa [unit] at this
  · rcases high with near | tiny
    · refine near.trans_lt ?_
      rw [fraction, ← pow_succ']
      exact next
    · have one : (1 : ℚ) ≤ (num / den + 1 : Nat) := by
        exact_mod_cast Nat.succ_le_succ (Nat.zero_le _)
      refine (tiny.trans_lt ?_).trans_le one
      rw [fraction, least, ← pow_succ', ← zpow_natCast, ← zpow_add₀ two_ne_zero]
      exact zpow_lt_one_of_neg₀ (by norm_num) (by norm_num)

/-- A whole number with powers of two, as a number of the format. -/
theorem natCast_mul_two_pow (a k : Nat) :
    (a : ℚ) * 2 ^ (double.leastExponent + (1074 + k : Nat)) = (a * 2 ^ k : Nat) := by
  have least : double.leastExponent + (1074 + k : Nat) = k := by
    rw [Nat.cast_add, ← add_assoc]
    exact zero_add _
  rw [least, zpow_natCast]
  push_cast
  rfl

/-- A quotient that is not below a whole number that the format can hold is not cut off to less. -/
theorem le_floor_roundedMagnitude (hden : 0 < den) (finite : roundedMagnitude double num den < double.infinity)
    {a k : Nat} (fits : a ≤ 2 ^ 53) (le : ((a * 2 ^ k : Nat) : ℚ) ≤ num / den) :
    a * 2 ^ k ≤ ⌊rational double (roundedMagnitude double num den)⌋₊ := by
  rcases Nat.eq_zero_or_pos num with rfl | hnum
  · rw [Nat.cast_zero, zero_div] at le
    have none' : a * 2 ^ k ≤ 0 := by exact_mod_cast le
    exact none'.trans (Nat.zero_le _)
  rw [Nat.le_floor_iff (rational_nonneg _ _), ← natCast_mul_two_pow]
  exact (rounds hnum hden finite).low a (1074 + k) fits (by rwa [natCast_mul_two_pow])

end Binary

end FieldBinding.Numeral
