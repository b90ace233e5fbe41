import FieldBinding.Proofs.Numeral.Canonical

/-!
# Numbers that are written and read back

Zeros in front of digits do not change their value, and zeros behind them multiply it.  So numbers that are padded
to a width and integers with a sign are known by their text, and a padded number has its width if it fits.

Main results:

* `Numeral.value?_padded`, `Numeral.length_padded` — padded numbers.
* `Numeral.integer?_signedText` — integers.
-/

namespace FieldBinding.Numeral

-- Powers are those of the core library, whatever other instances are in sight.
attribute [local instance (2000)] instPowNat

/-- Digits that follow a number move it to the left. -/
theorem foldl_digits (n : Nat) (ds : List Char) :
    ds.foldl (fun n c => 10 * n + digitValue c) n = n * 10 ^ ds.length + value ds := by
  induction ds generalizing n with
  | nil => simp [value]
  | cons d ds ih =>
    have first : value (d :: ds) = digitValue d * 10 ^ ds.length + value ds := by
      rw [value, List.foldl_cons, ih, Nat.mul_zero, Nat.zero_add]
    rw [List.foldl_cons, ih, first, List.length_cons, Nat.pow_succ, Nat.add_mul, Nat.mul_comm (10 ^ ds.length) 10,
      ← Nat.mul_assoc, Nat.mul_comm n 10, Nat.add_assoc]

theorem value_append (cs ds : List Char) : value (cs ++ ds) = value cs * 10 ^ ds.length + value ds := by
  rw [← foldl_digits, value, List.foldl_append, value]

theorem value_replicate_zero (k : Nat) : value (List.replicate k '0') = 0 := by
  induction k with
  | zero => rfl
  | succ k ih =>
    rw [List.replicate_succ', value_append_singleton, ih]
    rfl

theorem value_zeros_append (k : Nat) (cs : List Char) : value (List.replicate k '0' ++ cs) = value cs := by
  rw [value_append, value_replicate_zero, Nat.zero_mul, Nat.zero_add]

theorem value_append_zeros (cs : List Char) (k : Nat) : value (cs ++ List.replicate k '0') = value cs * 10 ^ k := by
  rw [value_append, value_replicate_zero, List.length_replicate, Nat.add_zero]

theorem value?_digits (n : Nat) : value? (digits n) = some n :=
  value?_eq_some_iff.2 ⟨⟨digits_ne_nil n, fun _ hc => isDigit_of_mem_digits hc⟩, value_digits n⟩

/-! ## Padded numbers -/

theorem isDigit_of_mem_padded {width n : Nat} {c : Char} (h : c ∈ padded width n) : c.isDigit := by
  rcases List.mem_append.1 h with zero | digit
  · rw [List.eq_of_mem_replicate zero]
    rfl
  · exact isDigit_of_mem_digits digit

theorem value_padded (width n : Nat) : value (padded width n) = n := by
  rw [padded, value_zeros_append, value_digits]

theorem padded_ne_nil (width n : Nat) : padded width n ≠ [] :=
  List.append_ne_nil_of_right_ne_nil _ (digits_ne_nil n)

/-- A padded number is read back. -/
theorem value?_padded (width n : Nat) : value? (padded width n) = some n :=
  value?_eq_some_iff.2 ⟨⟨padded_ne_nil width n, fun _ hc => isDigit_of_mem_padded hc⟩, value_padded width n⟩

theorem padded_inj {width m n : Nat} (h : padded width m = padded width n) : m = n := by
  rw [← value_padded width m, h, value_padded]

theorem length_digits_le {width n : Nat} (positive : 0 < width) (h : n < 10 ^ width) :
    (digits n).length ≤ width := by
  induction width generalizing n with
  | zero => omega
  | succ width ih =>
    by_cases small : n < 10
    · rw [digits_of_lt small]
      simp
    · have tens : n / 10 < 10 ^ width := by
        rw [Nat.pow_succ] at h
        omega
      have positive' : 0 < width := by
        refine Nat.pos_of_ne_zero fun zero => ?_
        subst zero
        omega
      have split : digits n = digits (n / 10) ++ [(n % 10).digitChar] := by
        rw [digits_append (by omega) (by omega)]
        congr 1
        omega
      rw [split, List.length_append, List.length_singleton]
      exact Nat.succ_le_succ (ih positive' tens)

/-- A padded number is as long as its width if it fits. -/
theorem length_padded {width n : Nat} (positive : 0 < width) (h : n < 10 ^ width) :
    (padded width n).length = width := by
  have := length_digits_le positive h
  rw [padded, List.length_append, List.length_replicate]
  omega

/-! ## Integers -/

/-- What begins with a digit has no sign. -/
theorem integer?_of_isDigit {cs : List Char} (h : ∀ c ∈ cs, c.isDigit) :
    integer? cs = (value? cs).map Int.ofNat := by
  unfold integer?
  split
  · exact absurd (h '+' List.mem_cons_self) (by decide)
  · exact absurd (h '-' List.mem_cons_self) (by decide)
  · rfl

/-- An integer is read back from its text. -/
theorem integer?_signedText (i : Int) : integer? (signedText i).toList = some i := by
  rw [signedText, String.toList_ofList]
  split
  · next negative =>
    have value : integer? ('-' :: digits i.natAbs) = some (-(i.natAbs : Int)) := by simp [integer?, value?_digits]
    rw [value]
    congr 1
    omega
  · next positive =>
    rw [integer?_of_isDigit fun c hc => isDigit_of_mem_digits hc, value?_digits, Option.map_some]
    congr 1
    simp only [Int.ofNat_eq_natCast]
    omega

theorem signedText_inj {i j : Int} (h : signedText i = signedText j) : i = j := by
  have read := integer?_signedText i
  rw [h, integer?_signedText] at read
  exact (Option.some.inj read).symm

end FieldBinding.Numeral
