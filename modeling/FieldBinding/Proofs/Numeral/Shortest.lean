import Mathlib.Data.List.TakeWhile
import FieldBinding.Numeral.Literal
import FieldBinding.Numeral.Shortest
import FieldBinding.Proofs.Numeral.Padded
import FieldBinding.Proofs.Numeral.Rounding

/-!
# The text of a binary number determines it

The shortest decimal number lies in the interval of the numbers that are nearest to the binary one, and the intervals
of different numbers have nothing in common.  The decimal number can be read off the text: it is the mantissa that
stands there.

Main results:

* `Decimal.nearest_shortest` — the shortest decimal number is nearest to the number that it is written for.
* `Literal.mantissa?_chars` — a decimal number is read back from its text.
* `Binary.text_inj` — numbers with the same text are the same.
-/

namespace FieldBinding.Numeral

-- Powers are those of the core library, whatever other instances are in sight.
attribute [local instance (2000)] instPowNat

open Binary

/-! ## The interval -/

namespace RoundingInterval

/-- The neighbour on a coarser grid is taken from the interval. -/
theorem contains_of_neighbour? {i : RoundingInterval} {zeros n : Nat} (h : i.neighbour? zeros = some n) :
    i.contains (n * (4 * 10 ^ zeros)) = true := by
  unfold neighbour? at h
  simp only at h
  split at h
  · next lower upper =>
    split at h <;> obtain rfl := Option.some.inj h
    · exact upper
    · exact lower
  · next lower _ =>
    obtain rfl := Option.some.inj h
    exact lower
  · next _ upper =>
    obtain rfl := Option.some.inj h
    exact upper
  · cases h

/-- The coarsest neighbour is taken from the interval; at worst it is the center. -/
theorem contains_coarsest {i : RoundingInterval} (whole : i.center % 4 = 0) (center : i.contains i.center = true)
    (zeros : Nat) : i.contains ((i.coarsest zeros).1 * (4 * 10 ^ (i.coarsest zeros).2)) = true := by
  induction zeros with
  | zero =>
    have back : i.center / 4 * (4 * 10 ^ 0) = i.center := by omega
    rw [coarsest, back]
    exact center
  | succ zeros ih =>
    unfold coarsest
    split
    · next n found => exact contains_of_neighbour? found
    · exact ih

theorem bounds_of_contains {i : RoundingInterval} {quarters : Nat} (h : i.contains quarters = true) :
    (i.lower ≤ quarters ∧ quarters ≤ i.upper) ∧
      (i.closed = false → i.lower < quarters ∧ quarters < i.upper) := by
  unfold contains at h
  cases closed : i.closed <;>
    simp only [closed, Bool.false_eq_true, if_true, if_false, Bool.and_eq_true, decide_eq_true_eq] at h
  · exact ⟨⟨h.1.le, h.2.le⟩, fun _ => h⟩
  · exact ⟨h, nofun⟩

theorem contains_of_lt {i : RoundingInterval} {quarters : Nat} (low : i.lower < quarters)
    (high : quarters < i.upper) : i.contains quarters = true := by
  unfold contains
  split
  · simp [low.le, high.le]
  · simp [low, high]

/-- The unit of the interval around a number with an exponent. -/
def unit (exponent : Int) : Nat :=
  if 0 ≤ exponent then 2 ^ exponent.toNat else 5 ^ (-exponent).toNat

/-- The unit stands for a power of two, once the power of ten that the interval leaves out is put back. -/
theorem unit_mul_zpow (e : Int) : (unit e : ℚ) * 10 ^ min e 0 = 2 ^ e := by
  unfold unit
  split
  · next nonneg =>
    obtain ⟨n, rfl⟩ := Int.eq_ofNat_of_zero_le nonneg
    simp
  · next negative =>
    obtain ⟨n, rfl⟩ : ∃ n : Nat, e = -n := ⟨(-e).toNat, by omega⟩
    have ten : (10 : ℚ) = 2 * 5 := by norm_num
    rw [min_eq_left (by omega), neg_neg, Int.toNat_natCast, zpow_neg, zpow_neg, zpow_natCast, zpow_natCast, ten,
      mul_pow]
    push_cast
    field_simp

section Around

variable {f : Format} {magnitude : Nat}

theorem around_lower (positive : 0 < (parts f magnitude).1) :
    ((around f (parts f magnitude).1 (parts f magnitude).2).lower : ℚ) =
      4 * (((parts f magnitude).1 - reachBelow f magnitude) * unit (parts f magnitude).2) := by
  have lower : (around f (parts f magnitude).1 (parts f magnitude).2).lower =
      4 * ((parts f magnitude).1 * unit (parts f magnitude).2) -
        if (parts f magnitude).1 = 2 ^ f.fractionBits ∧ f.leastExponent < (parts f magnitude).2 then
          unit (parts f magnitude).2 else 2 * unit (parts f magnitude).2 := rfl
  have room : unit (parts f magnitude).2 ≤ (parts f magnitude).1 * unit (parts f magnitude).2 :=
    Nat.le_mul_of_pos_left _ positive
  rw [lower, reachBelow]
  split
  · rw [Nat.cast_sub (by omega)]
    push_cast
    ring
  · rw [Nat.cast_sub (by omega)]
    push_cast
    ring

theorem around_upper : ((around f (parts f magnitude).1 (parts f magnitude).2).upper : ℚ) =
    4 * (((parts f magnitude).1 + 1 / 2) * unit (parts f magnitude).2) := by
  have upper : (around f (parts f magnitude).1 (parts f magnitude).2).upper =
      4 * ((parts f magnitude).1 * unit (parts f magnitude).2) + 2 * unit (parts f magnitude).2 := rfl
  rw [upper]
  push_cast
  ring

/-- What the interval around a number contains is nearest to its magnitude. -/
theorem nearest_of_contains (positive : 0 < (parts f magnitude).1) {quarters : Nat}
    (h : (around f (parts f magnitude).1 (parts f magnitude).2).contains quarters = true) :
    Nearest f magnitude (quarters / 4 * 10 ^ min (parts f magnitude).2 0) := by
  obtain ⟨⟨low, high⟩, strict⟩ := bounds_of_contains h
  have power : (0 : ℚ) < 10 ^ min (parts f magnitude).2 0 := by positivity
  have scale : ∀ a : ℚ, a * 2 ^ (parts f magnitude).2 =
      4 * (a * unit (parts f magnitude).2) / 4 * 10 ^ min (parts f magnitude).2 0 := by
    intro a
    rw [← unit_mul_zpow]
    ring
  have low' : ((around f (parts f magnitude).1 (parts f magnitude).2).lower : ℚ) ≤ quarters := by exact_mod_cast low
  have high' : (quarters : ℚ) ≤ (around f (parts f magnitude).1 (parts f magnitude).2).upper := by
    exact_mod_cast high
  refine ⟨?_, ?_, fun odd => ?_⟩
  · rw [scale, ← around_lower positive]
    gcongr
  · rw [scale, ← around_upper]
    gcongr
  · obtain ⟨low, high⟩ := strict (by simp [around, odd])
    have low' : ((around f (parts f magnitude).1 (parts f magnitude).2).lower : ℚ) < quarters := by
      exact_mod_cast low
    have high' : (quarters : ℚ) < (around f (parts f magnitude).1 (parts f magnitude).2).upper := by
      exact_mod_cast high
    rw [scale, scale, ← around_lower positive, ← around_upper]
    exact ⟨by gcongr, by gcongr⟩

/-- The interval around a number contains the number. -/
theorem contains_center (positive : 0 < (parts f magnitude).1) :
    (around f (parts f magnitude).1 (parts f magnitude).2).contains
      (around f (parts f magnitude).1 (parts f magnitude).2).center = true := by
  have unit_pos : 0 < unit (parts f magnitude).2 := by
    unfold unit
    split <;> exact Nat.pow_pos (by decide)
  have center_pos : 0 < 4 * ((parts f magnitude).1 * unit (parts f magnitude).2) :=
    Nat.mul_pos (by decide) (Nat.mul_pos positive unit_pos)
  refine contains_of_lt (Nat.sub_lt center_pos ?_) (Nat.lt_add_of_pos_right (Nat.mul_pos (by decide) unit_pos))
  change 0 < if _ then unit (parts f magnitude).2 else 2 * unit (parts f magnitude).2
  split
  · exact unit_pos
  · exact Nat.mul_pos (by decide) unit_pos

end Around

end RoundingInterval

/-! ## Decimal numbers -/

namespace Decimal

/-- The rational number that a decimal number is. -/
def rational (d : Decimal) : ℚ :=
  d.digits * 10 ^ d.exponent

/-- The shortest decimal number is nearest to the number that it is written for. -/
theorem nearest_shortest {f : Format} {magnitude : Nat} (positive : 0 < (parts f magnitude).1) :
    Nearest f magnitude (shortest f (parts f magnitude).1 (parts f magnitude).2).rational := by
  have whole : (RoundingInterval.around f (parts f magnitude).1 (parts f magnitude).2).center % 4 = 0 :=
    Nat.mul_mod_right _ _
  have inside := RoundingInterval.contains_coarsest whole (RoundingInterval.contains_center positive)
    (Numeral.digits ((RoundingInterval.around f (parts f magnitude).1 (parts f magnitude).2).center / 4)).length
  have near := RoundingInterval.nearest_of_contains positive inside
  unfold shortest rational
  simp only
  generalize (RoundingInterval.around f (parts f magnitude).1 (parts f magnitude).2).coarsest _ = coarsest at near ⊢
  have value : ((coarsest.1 * (4 * 10 ^ coarsest.2) : Nat) : ℚ) / 4 * 10 ^ min (parts f magnitude).2 0 =
      coarsest.1 * 10 ^ (min (parts f magnitude).2 0 + coarsest.2) := by
    rw [zpow_add₀ (by norm_num), zpow_natCast]
    push_cast
    ring
  rw [value] at near
  exact near

end Decimal

/-! ## Reading the text -/

theorem mantissa?_of_isDigit {cs : List Char} (h : ∀ c ∈ cs, c.isDigit) :
    Literal.mantissa? cs = (value? cs).map fun n => (n, 0) := by
  have whole : cs.takeWhile Char.isDigit = cs := List.takeWhile_eq_self_iff.2 h
  have rest : cs.dropWhile Char.isDigit = [] := List.dropWhile_eq_nil_iff.2 h
  simp only [Literal.mantissa?, whole, rest]

theorem mantissa?_of_point {front places : List Char} (hfront : ∀ c ∈ front, c.isDigit)
    (hplaces : ∀ c ∈ places, c.isDigit) :
    Literal.mantissa? (front ++ '.' :: places) =
      (value? (front ++ places)).map fun n => (n, -(places.length : Int)) := by
  have whole : (front ++ '.' :: places).takeWhile Char.isDigit = front := by
    rw [List.takeWhile_append_of_pos hfront, List.takeWhile_cons_of_neg (by decide), List.append_nil]
  have rest : (front ++ '.' :: places).dropWhile Char.isDigit = '.' :: places := by
    rw [List.dropWhile_append_of_pos hfront, List.dropWhile_cons_of_neg (by decide)]
  have all : places.all Char.isDigit = true := List.all_eq_true.2 hplaces
  simp only [Literal.mantissa?, whole, rest, all, if_true]

/-- A decimal number is read back from its text. -/
theorem mantissa?_chars (d : Decimal) :
    Literal.mantissa? d.chars = some (d.digits * 10 ^ d.exponent.toNat, min d.exponent 0) := by
  have all : ∀ c ∈ digits d.digits, c.isDigit := fun c hc => isDigit_of_mem_digits hc
  have zeros : ∀ (k : Nat), ∀ c ∈ List.replicate k '0', c.isDigit := by
    intro k c hc
    rw [List.eq_of_mem_replicate hc]
    rfl
  have read : ∀ cs : List Char, cs ≠ [] → (∀ c ∈ cs, c.isDigit) → value? cs = some (value cs) :=
    fun cs nonempty digits => value?_eq_some_iff.2 ⟨⟨nonempty, digits⟩, rfl⟩
  unfold Decimal.chars
  simp only
  split
  · next nonneg =>
    have digits' : ∀ c ∈ digits d.digits ++ List.replicate d.exponent.toNat '0', c.isDigit := by
      intro c hc
      exact (List.mem_append.1 hc).elim (all c) (zeros _ c)
    rw [mantissa?_of_isDigit digits', read _ (by simp [digits_ne_nil]) digits', value_append_zeros, value_digits,
      Option.map_some, min_eq_right nonneg]
  · next negative =>
    have none' : d.exponent.toNat = 0 := by omega
    have exponent : min d.exponent 0 = d.exponent := min_eq_left (by omega)
    rw [none', Nat.pow_zero, Nat.mul_one, exponent]
    split
    · next fewer =>
      rw [mantissa?_of_point (fun c hc => all c (List.mem_of_mem_take hc)) fun c hc => all c (List.mem_of_mem_drop hc),
        List.take_append_drop, value?_digits, Option.map_some, List.length_drop]
      congr 2
      omega
    · next more =>
      have length : (-d.exponent).toNat - (digits d.digits).length + (digits d.digits).length =
          (-d.exponent).toNat := by omega
      generalize (-d.exponent).toNat - (digits d.digits).length = gap at *
      have split : ('0' :: '.' :: List.replicate gap '0') ++ digits d.digits =
          List.replicate 1 '0' ++ '.' :: (List.replicate gap '0' ++ digits d.digits) := by simp
      have digits' : ∀ c ∈ List.replicate gap '0' ++ digits d.digits, c.isDigit := by
        intro c hc
        exact (List.mem_append.1 hc).elim (zeros _ c) (all c)
      have number : value? (List.replicate 1 '0' ++ (List.replicate gap '0' ++ digits d.digits)) = some d.digits := by
        rw [read _ (by simp) fun c hc => (List.mem_append.1 hc).elim (zeros 1 c) (digits' c), value_zeros_append,
          value_zeros_append, value_digits]
      rw [split, mantissa?_of_point (zeros 1) digits', number, Option.map_some, List.length_append,
        List.length_replicate]
      congr 2
      omega

/-- The text of a decimal number has no sign. -/
theorem mantissa?_minus (cs : List Char) : Literal.mantissa? ('-' :: cs) = none := by
  have rest : ('-' :: cs).dropWhile Char.isDigit = '-' :: cs := List.dropWhile_cons_of_neg (by decide)
  simp [Literal.mantissa?, rest]

namespace Binary

variable {f : Format} {x y : Binary f}

/-- A text with a sign in front where there is one. -/
def signed (negative : Bool) (chars : List Char) : List Char :=
  if negative then '-' :: chars else chars

/-- The mantissa that is read off the text of a finite number is nearest to the number. -/
theorem text_of_isFinite (finite : x.isFinite = true) : ∃ chars n places,
    x.text = String.ofList (signed x.isNegative chars) ∧ Literal.mantissa? chars = some (n, places) ∧
      Nearest f x.magnitude (n * 10 ^ places) := by
  rcases Nat.eq_zero_or_pos (parts f x.magnitude).1 with zero | positive
  · refine ⟨['0'], 0, 0, ?_, rfl, ?_⟩
    · simp only [text, datum_of_isFinite finite, zero]
      rfl
    · have near := nearest_rational f x.magnitude
      rw [rational, zero, Nat.cast_zero, zero_mul] at near
      rwa [Nat.cast_zero, zero_mul]
  · let d := Decimal.shortest f (parts f x.magnitude).1 (parts f x.magnitude).2
    refine ⟨d.chars, _, _, ?_, mantissa?_chars d, ?_⟩
    · obtain ⟨significand, hsignificand⟩ := Nat.exists_eq_succ_of_ne_zero positive.ne'
      simp only [text, datum_of_isFinite finite, d, hsignificand]
      rfl
    · have value : ((d.digits * 10 ^ d.exponent.toNat : Nat) : ℚ) * 10 ^ min d.exponent 0 = d.rational := by
        have exponent : d.exponent = (d.exponent.toNat : Int) + min d.exponent 0 := by omega
        rw [Decimal.rational]
        nth_rewrite 3 [exponent]
        rw [zpow_add₀ (by norm_num), zpow_natCast]
        push_cast
        ring
      rw [value]
      exact Decimal.nearest_shortest positive

theorem text_of_not_isFinite (number : x.isNaN = false) (infinite' : ¬ x.isFinite = true) :
    x.text = String.ofList (signed x.isNegative "inf".toList) := by
  simp only [text, datum_of_not_isFinite number infinite']
  rfl

/-- A text begins with the sign of its number and goes on without one. -/
theorem text_spec (number : x.isNaN = false) : ∃ chars, x.text = String.ofList (signed x.isNegative chars) ∧
    (∀ rest, chars ≠ '-' :: rest) ∧
      ((∃ n places, Literal.mantissa? chars = some (n, places) ∧ x.isFinite = true ∧
          Nearest f x.magnitude (n * 10 ^ places)) ∨
        Literal.mantissa? chars = none ∧ x.magnitude = f.infinity) := by
  by_cases finite : x.isFinite = true
  · obtain ⟨chars, n, places, text, read, near⟩ := text_of_isFinite finite
    refine ⟨chars, text, ?_, .inl ⟨n, places, read, finite, near⟩⟩
    rintro rest rfl
    rw [mantissa?_minus] at read
    cases read
  · refine ⟨_, text_of_not_isFinite number finite, nofun, .inr ⟨?_, magnitude_of_not_isFinite number finite⟩⟩
    decide

theorem signed_inj {negative negative' : Bool} {chars chars' : List Char} (unsigned : ∀ rest, chars ≠ '-' :: rest)
    (unsigned' : ∀ rest, chars' ≠ '-' :: rest) (h : signed negative chars = signed negative' chars') :
    negative = negative' ∧ chars = chars' := by
  cases negative <;> cases negative' <;> simp only [signed, Bool.false_eq_true, if_true, if_false] at h
  · exact ⟨rfl, h⟩
  · exact absurd h (unsigned _)
  · exact absurd h.symm (unsigned' _)
  · exact ⟨rfl, (List.cons.inj h).2⟩

/-- Numbers with the same text are the same. -/
theorem text_inj (hf : 0 < f.precision) (hx : x.isNaN = false) (hy : y.isNaN = false) (h : x.text = y.text) :
    x = y := by
  obtain ⟨chars, text, unsigned, read⟩ := text_spec hx
  obtain ⟨chars', text', unsigned', read'⟩ := text_spec hy
  rw [text, text'] at h
  obtain ⟨sign, rfl⟩ := signed_inj unsigned unsigned' (String.ofList_injective h)
  refine eq_of_magnitude hf sign ?_
  rcases read with ⟨n, places, read, finite, near⟩ | ⟨read, infinite'⟩ <;>
    rcases read' with ⟨n', places', read', finite', near'⟩ | ⟨read', infinite''⟩ <;> rw [read] at read'
  · cases read'
    simp only [isFinite, decide_eq_true_eq] at finite finite'
    exact Nearest.unique (by positivity) near near' finite.le finite'.le
  · cases read'
  · cases read'
  · rw [infinite', infinite'']

end Binary

end FieldBinding.Numeral
