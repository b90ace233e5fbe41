import Mathlib.Algebra.Order.Field.Power
import Mathlib.Data.Rat.Lemmas
import Mathlib.Tactic.FieldSimp
import Mathlib.Tactic.Linarith
import Mathlib.Tactic.NormNum
import Mathlib.Tactic.Positivity
import Mathlib.Tactic.Ring
import FieldBinding.Numeral.Binary

/-!
# Rounding to binary numbers

A finite magnitude stands for a rational number (`Binary.rational`), and around it lies the interval of rational
numbers that are nearest to it (`Binary.Nearest`).  A quotient inside the interval is rounded to the magnitude.  So
two magnitudes have no number of their intervals in common, and what a format can hold is rounded to itself:
integers that fit the significand, and the numbers of a smaller format.

Main results:

* `Binary.roundedMagnitude_eq` — a quotient is rounded to the magnitude that it is nearest to.
* `Binary.Nearest.unique` — a number is nearest to one magnitude only.
* `Binary.ofInt_inj`, `Binary.convert_inj` — different integers and different numbers stay different.
-/

namespace FieldBinding.Numeral

-- Powers are those of the core library, whatever other instances are in sight.
attribute [local instance (2000)] instPowNat

/-! ## Quotients -/

theorem zpow_eq_div (a : ℚ) (e : Int) : a ^ e = a ^ e.toNat / a ^ (-e).toNat := by
  obtain ⟨n, rfl | rfl⟩ := e.eq_nat_or_neg <;> simp

namespace Binary

variable {f : Format} {num den : Nat}

theorem scaled_snd_pos (e : Int) (hden : 0 < den) : 0 < (scaled num den e).2 :=
  Nat.mul_pos hden (Nat.pow_pos (by decide))

/-- Scaling divides by a power of two. -/
theorem scaled_div (num den : Nat) (e : Int) :
    ((scaled num den e).1 : ℚ) / (scaled num den e).2 = (num / den : ℚ) / 2 ^ e := by
  rw [zpow_eq_div]
  simp only [scaled, Nat.cast_mul, Nat.cast_pow, Nat.cast_ofNat]
  field_simp

/-- A quotient lies between the power of two of its exponent and the next one. -/
theorem binaryExponent_spec (hnum : 0 < num) (hden : 0 < den) :
    (2 : ℚ) ^ binaryExponent num den ≤ num / den ∧ (num / den : ℚ) < 2 ^ (binaryExponent num den + 1) := by
  have num_le : ((2 : ℚ) ^ (num.log2 : Int)) ≤ num := by
    rw [zpow_natCast]
    exact_mod_cast Nat.log2_self_le hnum.ne'
  have lt_num : (num : ℚ) < 2 ^ ((num.log2 : Int) + 1) := by
    exact_mod_cast Nat.lt_log2_self (n := num)
  have den_le : ((2 : ℚ) ^ (den.log2 : Int)) ≤ den := by
    rw [zpow_natCast]
    exact_mod_cast Nat.log2_self_le hden.ne'
  have lt_den : (den : ℚ) < 2 ^ ((den.log2 : Int) + 1) := by
    exact_mod_cast Nat.lt_log2_self (n := den)
  have den_pos : (0 : ℚ) < den := by exact_mod_cast hden
  -- the estimate is right or one too large
  have above : (num / den : ℚ) < 2 ^ ((num.log2 : Int) - den.log2 + 1) := by
    rw [div_lt_iff₀ den_pos]
    calc (num : ℚ) < 2 ^ ((num.log2 : Int) + 1) := lt_num
      _ = 2 ^ ((num.log2 : Int) - den.log2 + 1) * 2 ^ (den.log2 : Int) := by
        rw [← zpow_add₀ (by norm_num)]
        congr 1
        ring
      _ ≤ 2 ^ ((num.log2 : Int) - den.log2 + 1) * den := by gcongr
  have below : (2 : ℚ) ^ ((num.log2 : Int) - den.log2 - 1) ≤ num / den := by
    rw [le_div_iff₀ den_pos]
    calc (2 : ℚ) ^ ((num.log2 : Int) - den.log2 - 1) * den
        ≤ 2 ^ ((num.log2 : Int) - den.log2 - 1) * 2 ^ ((den.log2 : Int) + 1) := by gcongr
      _ = 2 ^ (num.log2 : Int) := by
        rw [← zpow_add₀ (by norm_num)]
        congr 1
        ring
      _ ≤ num := num_le
  have scale_pos : (0 : ℚ) < (scaled num den (num.log2 - den.log2)).2 := by
    exact_mod_cast scaled_snd_pos _ hden
  have compare : (scaled num den (num.log2 - den.log2)).1 < (scaled num den (num.log2 - den.log2)).2 ↔
      (num / den : ℚ) < 2 ^ ((num.log2 : Int) - den.log2) := by
    rw [← Nat.cast_lt (α := ℚ), ← div_lt_one scale_pos, scaled_div, div_lt_one (by positivity)]
  unfold binaryExponent
  simp only
  split
  · next less =>
    refine ⟨below, ?_⟩
    rw [sub_add_cancel]
    exact compare.1 less
  · next notLess => exact ⟨not_lt.1 fun h => notLess (compare.2 h), above⟩

/-- A quotient is rounded to the natural number that it is at most a half away from; exactly a half away it is
rounded to an even one. -/
theorem roundHalfEven_eq {n d m : Nat} (hd : 0 < d) (low : (m - 1 / 2 : ℚ) ≤ n / d) (high : (n / d : ℚ) ≤ m + 1 / 2)
    (strict : m % 2 = 1 → (m - 1 / 2 : ℚ) < n / d ∧ (n / d : ℚ) < m + 1 / 2) : roundHalfEven n d = m := by
  have hd' : (0 : ℚ) < d := by exact_mod_cast hd
  have low' : 2 * (m * d) ≤ 2 * n + d := by
    rw [le_div_iff₀ hd'] at low
    have : (2 * (m * d) : ℚ) ≤ 2 * n + d := by linarith
    exact_mod_cast this
  have high' : 2 * n ≤ 2 * (m * d) + d := by
    rw [div_le_iff₀ hd'] at high
    have : (2 * n : ℚ) ≤ 2 * (m * d) + d := by linarith
    exact_mod_cast this
  have strict' : m % 2 = 1 → 2 * (m * d) < 2 * n + d ∧ 2 * n < 2 * (m * d) + d := by
    intro odd
    obtain ⟨low, high⟩ := strict odd
    rw [lt_div_iff₀ hd'] at low
    rw [div_lt_iff₀ hd'] at high
    have low : (2 * (m * d) : ℚ) < 2 * n + d := by linarith
    have high : (2 * n : ℚ) < 2 * (m * d) + d := by linarith
    exact_mod_cast And.intro low high
  clear low high strict
  have parts := Nat.div_add_mod n d
  have rest := Nat.mod_lt n hd
  have near : m = n / d ∨ m = n / d + 1 := by
    have notAbove : ¬ m + 1 ≤ n / d := by
      intro h
      have := Nat.mul_le_mul_left d h
      rw [Nat.mul_add, Nat.mul_comm d m] at this
      omega
    have notBelow : ¬ n / d + 2 ≤ m := by
      intro h
      have := Nat.mul_le_mul_right d h
      rw [Nat.add_mul, Nat.mul_comm (n / d)] at this
      omega
    omega
  unfold roundHalfEven
  simp only
  rcases near with rfl | rfl
  · rw [Nat.mul_comm (n / d) d] at low' high' strict'
    rw [if_neg]
    rintro (more | ⟨half, odd⟩)
    · omega
    · have := strict' odd
      omega
  · rw [Nat.add_mul, Nat.mul_comm (n / d) d] at low' high' strict'
    rw [if_pos]
    by_cases half : 2 * (n % d) = d
    · refine .inr ⟨half, ?_⟩
      by_contra even
      have := strict' (by omega)
      omega
    · omega

/-! ## Magnitudes as rational numbers -/

/-- A finite magnitude is a significand of so many steps of the exponent above the least one: the steps and the
significand together are the magnitude, and only without a step may the leading bit be missing. -/
theorem parts_spec (f : Format) (magnitude : Nat) : ∃ steps : Nat,
    (parts f magnitude).2 = f.leastExponent + steps ∧
      magnitude = steps * 2 ^ f.fractionBits + (parts f magnitude).1 ∧
      (parts f magnitude).1 < 2 * 2 ^ f.fractionBits ∧
      (0 < steps → 2 ^ f.fractionBits ≤ (parts f magnitude).1) := by
  have positive : 0 < 2 ^ f.fractionBits := Nat.pow_pos (by decide)
  have whole := Nat.div_add_mod magnitude (2 ^ f.fractionBits)
  have rest := Nat.mod_lt magnitude positive
  unfold parts
  simp only
  by_cases subnormal : magnitude / 2 ^ f.fractionBits = 0
  · simp only [subnormal, if_true]
    rw [subnormal, Nat.mul_zero, Nat.zero_add] at whole
    exact ⟨0, by simp, by rw [Nat.zero_mul, Nat.zero_add, whole], by omega, nofun⟩
  · simp only [subnormal, if_false]
    obtain ⟨steps, hsteps⟩ := Nat.exists_eq_succ_of_ne_zero subnormal
    rw [hsteps, Nat.mul_succ, Nat.mul_comm _ steps] at whole
    exact ⟨steps, by rw [hsteps]; rfl, by omega, by omega, fun _ => by omega⟩

/-- The parts of a magnitude that is put together from steps and a significand. -/
theorem parts_eq (steps : Nat) {significand : Nat} (small : significand < 2 * 2 ^ f.fractionBits)
    (leading : 0 < steps → 2 ^ f.fractionBits ≤ significand) :
    parts f (steps * 2 ^ f.fractionBits + significand) = (significand, f.leastExponent + steps) := by
  have positive : 0 < 2 ^ f.fractionBits := Nat.pow_pos (by decide)
  obtain ⟨steps', exponent, whole, small', leading'⟩ := parts_spec f (steps * 2 ^ f.fractionBits + significand)
  -- more steps would need a leading bit that the significand does not have
  have same : steps = steps' := by
    rcases lt_trichotomy steps steps' with less | same | more
    · have := Nat.mul_le_mul_right (2 ^ f.fractionBits) (Nat.succ_le_of_lt less)
      rw [Nat.succ_mul] at this
      have := leading' (by omega)
      omega
    · exact same
    · have := Nat.mul_le_mul_right (2 ^ f.fractionBits) (Nat.succ_le_of_lt more)
      rw [Nat.succ_mul] at this
      have := leading (by omega)
      omega
  subst same
  exact Prod.ext (by omega) exponent

/-- The rational number that a finite magnitude stands for. -/
def rational (f : Format) (magnitude : Nat) : ℚ :=
  (parts f magnitude).1 * 2 ^ (parts f magnitude).2

/-- How far below a magnitude the numbers are nearest to it, in units of its last place: half of the way to the
magnitude before it, which is half as long below a power of two. -/
def reachBelow (f : Format) (magnitude : Nat) : ℚ :=
  if (parts f magnitude).1 = 2 ^ f.fractionBits ∧ f.leastExponent < (parts f magnitude).2 then 1 / 4 else 1 / 2

/-- Whether a rational number is nearest to a finite magnitude.  Half of the way to a neighbour it belongs to the one
with the even significand. -/
structure Nearest (f : Format) (magnitude : Nat) (q : ℚ) : Prop where
  low : ((parts f magnitude).1 - reachBelow f magnitude) * 2 ^ (parts f magnitude).2 ≤ q
  high : q ≤ ((parts f magnitude).1 + 1 / 2) * 2 ^ (parts f magnitude).2
  strict : (parts f magnitude).1 % 2 = 1 →
    ((parts f magnitude).1 - reachBelow f magnitude) * 2 ^ (parts f magnitude).2 < q ∧
      q < ((parts f magnitude).1 + 1 / 2) * 2 ^ (parts f magnitude).2

theorem reachBelow_pos (f : Format) (magnitude : Nat) : 0 < reachBelow f magnitude := by
  unfold reachBelow
  split <;> norm_num

theorem reachBelow_le (f : Format) (magnitude : Nat) : reachBelow f magnitude ≤ 1 / 2 := by
  unfold reachBelow
  split <;> norm_num

/-- A magnitude is nearest to itself. -/
theorem nearest_rational (f : Format) (magnitude : Nat) : Nearest f magnitude (rational f magnitude) := by
  have below := reachBelow_pos f magnitude
  have scale : (0 : ℚ) < 2 ^ (parts f magnitude).2 := by positivity
  have low : ((parts f magnitude).1 - reachBelow f magnitude) * 2 ^ (parts f magnitude).2 < rational f magnitude :=
    mul_lt_mul_of_pos_right (by linarith) scale
  have high : rational f magnitude < ((parts f magnitude).1 + 1 / 2) * 2 ^ (parts f magnitude).2 :=
    mul_lt_mul_of_pos_right (by linarith) scale
  exact ⟨low.le, high.le, fun _ => ⟨low, high⟩⟩

theorem rational_zero (f : Format) : rational f 0 = 0 := by
  simp [rational, parts]

theorem rational_nonneg (f : Format) (magnitude : Nat) : 0 ≤ rational f magnitude := by
  unfold rational
  positivity

/-! ## Nearest magnitudes -/

/-- The rounded magnitude, once the exponent and the significand are known. -/
theorem roundedMagnitude_of {steps : Nat} (significand : Nat) (hnum : num ≠ 0)
    (exponent : max f.leastExponent (binaryExponent num den - f.fractionBits) = f.leastExponent + steps)
    (rounded : roundHalfEven (scaled num den (f.leastExponent + steps)).1 (scaled num den (f.leastExponent + steps)).2 =
      significand) :
    roundedMagnitude f num den = min f.infinity (steps * 2 ^ f.fractionBits + significand) := by
  unfold roundedMagnitude
  simp only [hnum, if_false, exponent, rounded]
  congr 3
  omega

/-- The exponent of rounding is so many steps above the least one if the quotient lies below the last significand of
this exponent, and above the first one if there is a step. -/
theorem exponent_eq (steps : Nat) (hnum : 0 < num) (hden : 0 < den)
    (high : (num / den : ℚ) < 2 * 2 ^ f.fractionBits * 2 ^ (f.leastExponent + steps))
    (low : 0 < steps → (2 ^ f.fractionBits * 2 ^ (f.leastExponent + steps) : ℚ) ≤ num / den) :
    max f.leastExponent (binaryExponent num den - f.fractionBits) = f.leastExponent + steps := by
  obtain ⟨below, above⟩ := binaryExponent_spec hnum hden
  have last : (2 * 2 ^ f.fractionBits * 2 ^ (f.leastExponent + steps) : ℚ) =
      2 ^ (1 + f.fractionBits + (f.leastExponent + steps) : Int) := by
    rw [zpow_add₀ two_ne_zero (1 + _), zpow_add₀ two_ne_zero 1, zpow_one, zpow_natCast]
  have first : (2 ^ f.fractionBits * 2 ^ (f.leastExponent + steps) : ℚ) =
      2 ^ (f.fractionBits + (f.leastExponent + steps) : Int) := by
    rw [zpow_add₀ two_ne_zero (f.fractionBits : Int), zpow_natCast]
  have upper : binaryExponent num den < 1 + f.fractionBits + (f.leastExponent + steps) :=
    (zpow_lt_zpow_iff_right₀ (by norm_num : (1 : ℚ) < 2)).1 (below.trans_lt (last ▸ high))
  rcases Nat.eq_zero_or_pos steps with rfl | some'
  · simp only [Nat.cast_zero, add_zero] at upper ⊢
    exact max_eq_left (by omega)
  · have lower : f.fractionBits + (f.leastExponent + steps) < binaryExponent num den + 1 :=
      (zpow_lt_zpow_iff_right₀ (by norm_num : (1 : ℚ) < 2)).1 ((first ▸ low some').trans_lt above)
    omega

/-- A quotient whose exponent is known is rounded to the significand that it is at most a half away from. -/
theorem roundedMagnitude_near {steps significand : Nat} (hnum : 0 < num) (hden : 0 < den)
    (low : (significand - 1 / 2 : ℚ) * 2 ^ (f.leastExponent + steps) ≤ num / den)
    (high : (num / den : ℚ) ≤ (significand + 1 / 2) * 2 ^ (f.leastExponent + steps))
    (strict : significand % 2 = 1 → (significand - 1 / 2 : ℚ) * 2 ^ (f.leastExponent + steps) < num / den ∧
      (num / den : ℚ) < (significand + 1 / 2) * 2 ^ (f.leastExponent + steps))
    (last : (num / den : ℚ) < 2 * 2 ^ f.fractionBits * 2 ^ (f.leastExponent + steps))
    (first : 0 < steps → (2 ^ f.fractionBits * 2 ^ (f.leastExponent + steps) : ℚ) ≤ num / den) :
    roundedMagnitude f num den = min f.infinity (steps * 2 ^ f.fractionBits + significand) := by
  have unit : (0 : ℚ) < 2 ^ (f.leastExponent + steps) := by positivity
  refine roundedMagnitude_of significand hnum.ne' (exponent_eq steps hnum hden last first)
    (roundHalfEven_eq (scaled_snd_pos _ hden) ?_ ?_ fun odd => ⟨?_, ?_⟩) <;> rw [scaled_div]
  · rwa [le_div_iff₀ unit]
  · rwa [div_le_iff₀ unit]
  · rw [lt_div_iff₀ unit]
    exact (strict odd).1
  · rw [div_lt_iff₀ unit]
    exact (strict odd).2

/-- Zero is nearest to zero only. -/
theorem Nearest.eq_zero {magnitude : Nat} (near : Nearest f magnitude 0) : magnitude = 0 := by
  have reach := reachBelow_le f magnitude
  have positive : 0 < 2 ^ f.fractionBits := Nat.pow_pos (by decide)
  have unit : (0 : ℚ) < 2 ^ (parts f magnitude).2 := by positivity
  have none' : ((parts f magnitude).1 - reachBelow f magnitude : ℚ) ≤ 0 :=
    not_lt.1 fun more => absurd near.low (not_le.2 (mul_pos more unit))
  have less : ((parts f magnitude).1 : ℚ) < 1 := by linarith
  have zero : (parts f magnitude).1 < 1 := by exact_mod_cast less
  obtain ⟨steps, -, whole, -, leading⟩ := parts_spec f magnitude
  obtain rfl : steps = 0 := by
    by_contra more
    have := leading (Nat.pos_of_ne_zero more)
    omega
  omega

/-- A quotient is rounded to the magnitude that it is nearest to. -/
theorem roundedMagnitude_eq (hden : 0 < den) {magnitude : Nat} (bound : magnitude ≤ f.infinity)
    (near : Nearest f magnitude (num / den)) : roundedMagnitude f num den = magnitude := by
  rcases Nat.eq_zero_or_pos num with rfl | hnum
  · rw [Nat.cast_zero, zero_div] at near
    simp [roundedMagnitude, near.eq_zero]
  obtain ⟨low, high, strict⟩ := near
  have reach := reachBelow_le f magnitude
  obtain ⟨steps, exponent, whole, small, leading⟩ := parts_spec f magnitude
  rw [exponent] at low high strict
  generalize hsignificand : (parts f magnitude).1 = significand at *
  by_cases narrow : significand = 2 ^ f.fractionBits ∧ 0 < steps ∧
      (num / den : ℚ) < 2 ^ f.fractionBits * 2 ^ (f.leastExponent + steps)
  · -- below a power of two the quotient has the exponent before, and is rounded up to the power
    obtain ⟨rfl, some', less⟩ := narrow
    obtain ⟨steps, rfl⟩ := Nat.exists_eq_succ_of_ne_zero some'.ne'
    have reach : reachBelow f magnitude = 1 / 4 := if_pos ⟨hsignificand, by rw [exponent]; omega⟩
    have unit : (0 : ℚ) < 2 ^ (f.leastExponent + steps) := by positivity
    have twice : (2 : ℚ) ^ (f.leastExponent + (steps + 1 : Nat)) = 2 * 2 ^ (f.leastExponent + steps) := by
      rw [Nat.cast_succ, ← add_assoc, zpow_add_one₀ two_ne_zero, mul_comm]
    have one_le : (1 : ℚ) ≤ 2 ^ f.fractionBits := one_le_pow₀ (by norm_num)
    rw [reach, Nat.cast_pow, Nat.cast_ofNat, twice] at low
    rw [twice] at less
    have low' : ((2 * 2 ^ f.fractionBits : Nat) - 1 / 2 : ℚ) * 2 ^ (f.leastExponent + steps) ≤ num / den := by
      refine le_trans (le_of_eq ?_) low
      push_cast
      ring
    have high' : (num / den : ℚ) < 2 * 2 ^ f.fractionBits * 2 ^ (f.leastExponent + steps) := by
      refine less.trans_le (le_of_eq ?_)
      ring
    have sum : steps * 2 ^ f.fractionBits + 2 * 2 ^ f.fractionBits = magnitude := by
      have := Nat.succ_mul steps (2 ^ f.fractionBits)
      omega
    rw [roundedMagnitude_near hnum hden low' ?_ (fun odd => by omega) high' ?_, sum, min_eq_right bound]
    · refine high'.le.trans (mul_le_mul_of_nonneg_right ?_ unit.le)
      push_cast
      linarith
    · refine fun _ => (mul_le_mul_of_nonneg_right ?_ unit.le).trans low'
      push_cast
      linarith
  · have unit : (0 : ℚ) < 2 ^ (f.leastExponent + steps) := by positivity
    have small' : (significand : ℚ) + 1 ≤ 2 * 2 ^ f.fractionBits := by exact_mod_cast small
    have half : ((significand : ℚ) - 1 / 2) * 2 ^ (f.leastExponent + steps) ≤
        (significand - reachBelow f magnitude) * 2 ^ (f.leastExponent + steps) :=
      mul_le_mul_of_nonneg_right (by linarith) unit.le
    rw [roundedMagnitude_near hnum hden (half.trans low) high
      (fun odd => ⟨half.trans_lt (strict odd).1, (strict odd).2⟩)
      (high.trans_lt (mul_lt_mul_of_pos_right (by linarith) unit)) fun some' => ?_, ← whole, min_eq_right bound]
    by_cases power : significand = 2 ^ f.fractionBits
    · exact not_lt.1 fun less => narrow ⟨power, some', less⟩
    · have more : 2 ^ f.fractionBits + 1 ≤ significand := by
        have := leading some'
        omega
      have more' : (2 ^ f.fractionBits + 1 : ℚ) ≤ significand := by exact_mod_cast more
      exact (mul_le_mul_of_nonneg_right (by linarith) unit.le).trans low

/-- Every rational number that is not negative is a quotient of natural numbers. -/
theorem eq_natCast_div {q : ℚ} (h : 0 ≤ q) : q = (q.num.natAbs : ℚ) / q.den := by
  have num : (q.num.natAbs : ℚ) = q.num := by
    rw [← Int.cast_natCast, Int.natAbs_of_nonneg (Rat.num_nonneg.2 h)]
  rw [num, Rat.num_div_den]

/-- A number is nearest to one magnitude only. -/
theorem Nearest.unique {q : ℚ} {a b : Nat} (nonneg : 0 ≤ q) (ha : Nearest f a q) (hb : Nearest f b q)
    (bound : a ≤ f.infinity) (bound' : b ≤ f.infinity) : a = b := by
  rw [eq_natCast_div nonneg] at ha hb
  exact (roundedMagnitude_eq q.den_pos bound ha).symm.trans (roundedMagnitude_eq q.den_pos bound' hb)

/-- Different magnitudes stand for different numbers. -/
theorem rational_inj {a b : Nat} (bound : a ≤ f.infinity) (bound' : b ≤ f.infinity)
    (h : rational f a = rational f b) : a = b :=
  Nearest.unique (rational_nonneg f a) (nearest_rational f a) (h ▸ nearest_rational f b) bound bound'

/-! ## What a format can hold -/

/-- A significand that fits, with an exponent that is not below the least one, is the number of a magnitude. -/
theorem exists_rational (steps : Nat) {significand : Nat} (small : significand < 2 * 2 ^ f.fractionBits) :
    ∃ magnitude < (steps + 2) * 2 ^ f.fractionBits,
      rational f magnitude = significand * 2 ^ (f.leastExponent + steps) := by
  induction steps generalizing significand with
  | zero =>
    have parts := parts_eq (f := f) 0 small nofun
    rw [Nat.zero_mul, Nat.zero_add] at parts
    exact ⟨significand, by omega, by rw [rational, parts]⟩
  | succ steps ih =>
    by_cases leading : 2 ^ f.fractionBits ≤ significand
    · have parts := parts_eq (f := f) (steps + 1) small fun _ => leading
      refine ⟨(steps + 1) * 2 ^ f.fractionBits + significand, ?_, by rw [rational, parts]⟩
      rw [Nat.add_mul _ 2]
      omega
    · -- without the leading bit the significand is doubled
      obtain ⟨magnitude, less, doubled⟩ := ih (by omega : 2 * significand < 2 * 2 ^ f.fractionBits)
      refine ⟨magnitude, less.trans_le (Nat.mul_le_mul_right _ (by omega)), doubled.trans ?_⟩
      rw [Nat.cast_succ, ← add_assoc, zpow_add_one₀ two_ne_zero]
      push_cast
      ring

/-- A quotient that the format can hold is rounded to itself. -/
theorem rational_roundedMagnitude (steps significand : Nat) (hden : 0 < den)
    (small : significand < 2 * 2 ^ f.fractionBits) (finite : steps + 2 ≤ 2 ^ f.exponentBits - 1)
    (quotient : (num / den : ℚ) = significand * 2 ^ (f.leastExponent + steps)) :
    roundedMagnitude f num den < f.infinity ∧ rational f (roundedMagnitude f num den) = num / den := by
  obtain ⟨magnitude, less, exact'⟩ := exists_rational (f := f) steps small
  have bound : magnitude < f.infinity := less.trans_le (Nat.mul_le_mul_right _ finite)
  have near : Nearest f magnitude (num / den) := by
    rw [quotient, ← exact']
    exact nearest_rational f magnitude
  rw [roundedMagnitude_eq hden bound.le near]
  exact ⟨bound, exact'.trans quotient.symm⟩

/-! ## Bits -/

theorem infinity_lt (hf : 0 < f.precision) : f.infinity < 2 ^ (f.width - 1) := by
  have split : 2 ^ (f.width - 1) = 2 ^ f.exponentBits * 2 ^ f.fractionBits := by
    rw [← Nat.pow_add]
    congr 1
    unfold Format.fractionBits Format.width
    omega
  have exponents : 0 < 2 ^ f.exponentBits := Nat.pow_pos (by decide)
  have fractions : 0 < 2 ^ f.fractionBits := Nat.pow_pos (by decide)
  rw [split]
  exact Nat.mul_lt_mul_of_pos_right (by omega) fractions

section Bits

variable (hf : 0 < f.precision)
include hf

/-- The bits of a number are its sign in front of its magnitude. -/
theorem toNat_bits (x : Binary f) :
    x.bits.toNat = (if x.isNegative then 2 ^ (f.width - 1) else 0) + x.magnitude := by
  have width : 0 < f.width := by
    unfold Format.width
    omega
  have split : 2 ^ f.width = 2 ^ (f.width - 1) + 2 ^ (f.width - 1) := by
    rw [← Nat.two_mul, Nat.mul_comm, ← Nat.pow_succ]
    congr 1
    omega
  have bound := x.bits.isLt
  rw [isNegative, magnitude, BitVec.msb_eq_decide]
  by_cases negative : 2 ^ (f.width - 1) ≤ x.bits.toNat
  · simp only [negative, decide_true, if_true]
    rw [Nat.mod_eq_sub_mod negative, Nat.mod_eq_of_lt (by omega)]
    omega
  · simp only [negative, decide_false, Bool.false_eq_true, if_false]
    rw [Nat.mod_eq_of_lt (by omega)]
    omega

/-- A number is known by its sign and its magnitude. -/
theorem eq_of_magnitude {x y : Binary f} (sign : x.isNegative = y.isNegative) (h : x.magnitude = y.magnitude) :
    x = y := by
  have bits : x.bits = y.bits := by
    apply BitVec.eq_of_toNat_eq
    rw [toNat_bits hf, toNat_bits hf, sign, h]
  cases x
  cases y
  exact congrArg _ bits

variable {negative : Bool} {magnitude : Nat} (bound : magnitude ≤ f.infinity)
include bound

theorem toNat_bits_ofMagnitude :
    (ofMagnitude negative magnitude : Binary f).bits.toNat =
      (if negative then 2 ^ (f.width - 1) else 0) + magnitude := by
  have less := bound.trans_lt (infinity_lt hf)
  have split : 2 ^ f.width = 2 ^ (f.width - 1) + 2 ^ (f.width - 1) := by
    rw [← Nat.two_mul, Nat.mul_comm, ← Nat.pow_succ]
    congr 1
    unfold Format.width
    omega
  rw [ofMagnitude, BitVec.toNat_ofNat, Nat.mod_eq_of_lt]
  split <;> omega

theorem magnitude_ofMagnitude : (ofMagnitude negative magnitude : Binary f).magnitude = magnitude := by
  have less := bound.trans_lt (infinity_lt hf)
  rw [Binary.magnitude, toNat_bits_ofMagnitude hf bound]
  split
  · rw [Nat.add_mod_left, Nat.mod_eq_of_lt less]
  · rw [Nat.zero_add, Nat.mod_eq_of_lt less]

theorem isNegative_ofMagnitude : (ofMagnitude negative magnitude : Binary f).isNegative = negative := by
  have less := bound.trans_lt (infinity_lt hf)
  rw [isNegative, BitVec.msb_eq_decide, toNat_bits_ofMagnitude hf bound]
  cases negative <;> simp
  exact less

end Bits

theorem datum_of_isFinite {x : Binary f} (finite : x.isFinite = true) :
    x.datum = .finite x.isNegative (parts f x.magnitude).1 (parts f x.magnitude).2 := by
  have less : x.magnitude < f.infinity := by simpa [isFinite] using finite
  rw [datum, if_neg (by omega), if_neg (by omega)]

/-- What is a number and not finite is infinite. -/
theorem magnitude_of_not_isFinite {x : Binary f} (number : x.isNaN = false) (infinite : ¬ x.isFinite = true) :
    x.magnitude = f.infinity := by
  simp only [isNaN, decide_eq_false_iff_not] at number
  simp only [isFinite, decide_eq_true_eq] at infinite
  omega

theorem datum_of_not_isFinite {x : Binary f} (number : x.isNaN = false) (infinite : ¬ x.isFinite = true) :
    x.datum = .infinite x.isNegative := by
  have magnitude := magnitude_of_not_isFinite number infinite
  rw [datum, if_neg (by omega), if_pos magnitude]

/-! ## Integers and smaller formats -/

/-- An integer that fits the significand is rounded to itself. -/
theorem rational_ofInt {steps : Nat} (hf : 0 < f.precision) (least : f.leastExponent + steps = 0)
    (finite : steps + 2 ≤ 2 ^ f.exponentBits - 1) {i : Int} (small : i.natAbs < 2 * 2 ^ f.fractionBits) :
    (ofInt i : Binary f).magnitude < f.infinity ∧ rational f (ofInt i : Binary f).magnitude = i.natAbs ∧
      (ofInt i : Binary f).isNegative = decide (i < 0) := by
  have quotient : (i.natAbs / (1 : Nat) : ℚ) = i.natAbs * 2 ^ (f.leastExponent + steps) := by simp [least]
  obtain ⟨bound, exact'⟩ := rational_roundedMagnitude steps i.natAbs Nat.one_pos small finite quotient
  have magnitude : (ofInt i : Binary f).magnitude = roundedMagnitude f i.natAbs 1 :=
    magnitude_ofMagnitude hf bound.le
  refine ⟨magnitude ▸ bound, ?_, isNegative_ofMagnitude hf bound.le⟩
  rw [magnitude, exact', Nat.cast_one, div_one]

/-- Different integers that fit the significand stay different. -/
theorem ofInt_inj {steps : Nat} (hf : 0 < f.precision) (least : f.leastExponent + steps = 0)
    (finite : steps + 2 ≤ 2 ^ f.exponentBits - 1) {i j : Int} (hi : i.natAbs < 2 * 2 ^ f.fractionBits)
    (hj : j.natAbs < 2 * 2 ^ f.fractionBits) (h : (ofInt i : Binary f) = ofInt j) : i = j := by
  obtain ⟨-, number, sign⟩ := rational_ofInt hf least finite hi
  obtain ⟨-, number', sign'⟩ := rational_ofInt hf least finite hj
  rw [h] at number sign
  have magnitudes : i.natAbs = j.natAbs := by exact_mod_cast number.symm.trans number'
  have signs : i < 0 ↔ j < 0 := decide_eq_decide.1 (sign.symm.trans sign')
  omega

theorem equal_iff {x y : Binary f} :
    x.equal y = true ↔ x.isNaN = false ∧ y.isNaN = false ∧ (x.isZero = true ∧ y.isZero = true ∨ x = y) := by
  have bits : (x.bits == y.bits) = true ↔ x = y := by
    cases x
    cases y
    simp
  simp only [equal, Bool.and_eq_true, Bool.or_eq_true, Bool.not_eq_true', bits, and_assoc]

/-- Integers that fit the significand are equal as numbers only if they are the same; zero has no sign. -/
theorem ofInt_eq_of_equal {steps : Nat} (hf : 0 < f.precision) (least : f.leastExponent + steps = 0)
    (finite : steps + 2 ≤ 2 ^ f.exponentBits - 1) {i j : Int} (hi : i.natAbs < 2 * 2 ^ f.fractionBits)
    (hj : j.natAbs < 2 * 2 ^ f.fractionBits) (h : (ofInt i : Binary f).equal (ofInt j) = true) :
    (ofInt i : Binary f) = ofInt j := by
  have zero : ∀ {k : Int}, k.natAbs < 2 * 2 ^ f.fractionBits → (ofInt k : Binary f).isZero = true → k = 0 := by
    intro k hk isZero
    obtain ⟨-, number, -⟩ := rational_ofInt hf least finite hk
    have none' : (ofInt k : Binary f).magnitude = 0 := by simpa [Binary.isZero] using isZero
    rw [none', rational_zero] at number
    have : k.natAbs = 0 := by exact_mod_cast number.symm
    omega
  obtain ⟨-, -, ⟨zero', zero''⟩ | same⟩ := equal_iff.1 h
  · rw [zero hi zero', zero hj zero'']
  · exact same

/-- A finite number of 32 bits is one of 64 bits. -/
theorem rational_convert {x : Single} (finite : x.isFinite = true) :
    (x.convert : Double).magnitude < double.infinity ∧
      rational double (x.convert : Double).magnitude = rational single x.magnitude ∧
      (x.convert : Double).isNegative = x.isNegative := by
  have less : x.magnitude < single.infinity := by simpa [isFinite] using finite
  obtain ⟨steps, exponent, whole, small, leading⟩ := parts_spec single x.magnitude
  have steps_le : steps ≤ 253 := by
    by_contra more
    have : 254 * 2 ^ single.fractionBits ≤ steps * 2 ^ single.fractionBits := Nat.mul_le_mul_right _ (by omega)
    have := leading (by omega)
    have infinity : single.infinity = 255 * 2 ^ single.fractionBits := rfl
    omega
  have exponent' : (parts single x.magnitude).2 = double.leastExponent + (steps + 925 : Nat) := by
    have : single.leastExponent = double.leastExponent + 925 := rfl
    omega
  have quotient : (((parts single x.magnitude).1 * 2 ^ (parts single x.magnitude).2.toNat : Nat) /
      (2 ^ (-(parts single x.magnitude).2).toNat : Nat) : ℚ) = rational single x.magnitude := by
    rw [rational, zpow_eq_div]
    push_cast
    rw [mul_div_assoc]
  obtain ⟨bound, exact'⟩ := rational_roundedMagnitude (f := double) (steps + 925) (parts single x.magnitude).1
    (Nat.pow_pos (Nat.two_pos) : 0 < 2 ^ (-(parts single x.magnitude).2).toNat) (small.trans_le (by decide))
    (by have : 2 ^ double.exponentBits - 1 = 2047 := rfl; omega)
    (by rw [quotient, rational, exponent'])
  have converted : (x.convert : Double) = ofMagnitude x.isNegative
      (roundedMagnitude double ((parts single x.magnitude).1 * 2 ^ (parts single x.magnitude).2.toNat)
        (2 ^ (-(parts single x.magnitude).2).toNat)) := by
    rw [convert, datum_of_isFinite finite]
    rfl
  rw [converted, magnitude_ofMagnitude (by decide) bound.le]
  exact ⟨bound, exact'.trans quotient, isNegative_ofMagnitude (by decide) bound.le⟩

/-- An infinite number of 32 bits becomes infinite. -/
theorem convert_of_not_isFinite {x : Single} (number : x.isNaN = false) (infinite' : ¬ x.isFinite = true) :
    (x.convert : Double) = infinite x.isNegative := by
  rw [convert, datum_of_not_isFinite number infinite']

/-- Different numbers of 32 bits are different numbers of 64 bits. -/
theorem convert_inj {x y : Single} (hx : x.isNaN = false) (hy : y.isNaN = false)
    (h : (x.convert : Double) = y.convert) : x = y := by
  have sign : ∀ {z : Single}, z.isNaN = false → (z.convert : Double).isNegative = z.isNegative := by
    intro z hz
    by_cases finite : z.isFinite = true
    · exact (rational_convert finite).2.2
    · rw [convert_of_not_isFinite hz finite]
      exact isNegative_ofMagnitude (by decide) le_rfl
  have beyond : ∀ {z : Single}, z.isNaN = false → ¬ z.isFinite = true →
      (z.convert : Double).magnitude = double.infinity := by
    intro z hz infinite'
    rw [convert_of_not_isFinite hz infinite']
    exact magnitude_ofMagnitude (by decide) le_rfl
  refine eq_of_magnitude (by decide) (by rw [← sign hx, ← sign hy, h]) ?_
  by_cases finite : x.isFinite = true <;> by_cases finite' : y.isFinite = true
  · have less : x.magnitude < single.infinity := by simpa [isFinite] using finite
    have less' : y.magnitude < single.infinity := by simpa [isFinite] using finite'
    refine rational_inj less.le less'.le ?_
    rw [← (rational_convert finite).2.1, ← (rational_convert finite').2.1, h]
  · exact absurd (h ▸ beyond hy finite') (rational_convert finite).1.ne
  · exact absurd (h ▸ beyond hx finite) (rational_convert finite').1.ne
  · rw [magnitude_of_not_isFinite hx finite, magnitude_of_not_isFinite hy finite']

/-- Numbers of 32 bits are equal if they are equal as numbers of 64 bits. -/
theorem equal_of_convert_equal {x y : Single} (hx : x.isNaN = false) (hy : y.isNaN = false)
    (h : (x.convert : Double).equal y.convert = true) : x.equal y = true := by
  have zero : ∀ {z : Single}, z.isNaN = false → (z.convert : Double).isZero = true → z.isZero = true := by
    intro z hz isZero
    have none' : (z.convert : Double).magnitude = 0 := by simpa [Binary.isZero] using isZero
    by_cases finite : z.isFinite = true
    · obtain ⟨-, number, -⟩ := rational_convert finite
      have less : z.magnitude < single.infinity := by simpa [isFinite] using finite
      rw [none', rational_zero, ← rational_zero single] at number
      simp [Binary.isZero, rational_inj (Nat.zero_le _) less.le number]
    · rw [convert_of_not_isFinite hz finite] at none'
      have infinity : (infinite z.isNegative : Double).magnitude = double.infinity :=
        magnitude_ofMagnitude (by decide) le_rfl
      exact absurd (infinity.symm.trans none') (by decide)
  obtain ⟨-, -, ⟨zero', zero''⟩ | same⟩ := equal_iff.1 h
  · exact equal_iff.2 ⟨hx, hy, .inl ⟨zero hx zero', zero hy zero''⟩⟩
  · exact equal_iff.2 ⟨hx, hy, .inr (convert_inj hx hy same)⟩

end Binary

end FieldBinding.Numeral
