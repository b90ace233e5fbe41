import FieldBinding.Numeral.Digits

/-!
# The one spelling of an index

`Numeral.canonical?` accepts the digits of a number and nothing else: a run of digits without a superfluous zero
in front is the spelling of its value.

Main results:

* `Numeral.canonical?_digits` — the digits of an index are read back.
* `Numeral.digits_of_canonical?` — what is read as an index is written by its digits.
-/

namespace FieldBinding.Numeral

theorem digits_of_lt {n : Nat} (h : n < 10) : digits n = [n.digitChar] :=
  Nat.toDigits_of_lt_base h

/-- The digits of a number, and one more digit behind them. -/
theorem digits_append {n d : Nat} (more : 0 < n) (digit : d < 10) :
    digits n ++ [d.digitChar] = digits (10 * n + d) := by
  rw [← digits_of_lt digit]
  exact Nat.toDigits_append_toDigits (by decide) more digit

theorem digits_ne_nil (n : Nat) : digits n ≠ [] :=
  Nat.toDigits_ne_nil

theorem isDigit_of_mem_digits {n : Nat} {c : Char} (h : c ∈ digits n) : c.isDigit :=
  Nat.isDigit_of_mem_toDigits (by decide) (by decide) h

theorem value_digits (n : Nat) : value (digits n) = n :=
  Nat.ofDigitChars_ten_toDigits

/-- Only zero begins with a zero. -/
theorem digits_of_leading_zero {n : Nat} {rest : List Char} (h : digits n = '0' :: rest) : rest = [] := by
  have zero : n = 0 := by
    induction n using Nat.strongRecOn generalizing rest with
    | _ n ih =>
      by_cases small : n < 10
      · rw [digits_of_lt small, List.cons.injEq] at h
        exact Nat.digitChar_eq_zero.1 h.1
      have split : digits n = digits (n / 10) ++ [(n % 10).digitChar] := by
        rw [digits_append (by omega) (by omega)]
        congr 1
        omega
      obtain ⟨c, front, hfront⟩ := List.exists_cons_of_ne_nil (digits_ne_nil (n / 10))
      rw [split, hfront, List.cons_append, List.cons.injEq] at h
      have tens := ih (n / 10) (by omega) (h.1 ▸ hfront)
      omega
  subst zero
  exact ((List.cons.inj h).2).symm

/-- A digit is the digit of its value. -/
theorem digitChar_digitValue {c : Char} (digit : c.isDigit) : (digitValue c).digitChar = c := by
  have bounds : 48 ≤ c.toNat ∧ c.toNat ≤ 57 := by
    simpa [Char.isDigit, UInt32.le_iff_toNat_le] using digit
  have number : (digitValue c).digitChar.toNat = c.toNat := by
    have small : digitValue c < 10 := by
      simp only [digitValue, Char.reduceToNat]
      omega
    rw [Nat.toNat_digitChar_of_lt_ten small]
    simp only [digitValue, Char.reduceToNat]
    omega
  rw [← Char.ofNat_toNat (digitValue c).digitChar, number, Char.ofNat_toNat]

theorem digitValue_lt {c : Char} (digit : c.isDigit) : digitValue c < 10 := by
  have bounds : 48 ≤ c.toNat ∧ c.toNat ≤ 57 := by
    simpa [Char.isDigit, UInt32.le_iff_toNat_le] using digit
  simp only [digitValue, Char.reduceToNat]
  omega

/-- More digits behind the digits of a number that is not zero. -/
theorem digits_foldl {acc : Nat} (positive : 0 < acc) {cs : List Char} (all : ∀ c ∈ cs, c.isDigit) :
    digits (cs.foldl (fun n c => 10 * n + digitValue c) acc) = digits acc ++ cs := by
  induction cs generalizing acc with
  | nil => rw [List.foldl_nil, List.append_nil]
  | cons c rest ih =>
    have digit : c.isDigit := all c List.mem_cons_self
    rw [List.foldl_cons, ih (by omega) fun d hd => all d (List.mem_cons_of_mem c hd),
      ← digits_append positive (digitValue_lt digit), digitChar_digitValue digit]
    simp

/-- A run of digits without a superfluous zero in front is the spelling of its value. -/
theorem digits_value {cs : List Char} (nonempty : cs ≠ []) (all : ∀ c ∈ cs, c.isDigit)
    (lead : ∀ rest, cs = '0' :: rest → rest = []) : digits (value cs) = cs := by
  obtain ⟨c, rest, rfl⟩ := List.exists_cons_of_ne_nil nonempty
  have digit : c.isDigit := all c List.mem_cons_self
  have first : digits (digitValue c) = [c] := by
    rw [digits_of_lt (digitValue_lt digit), digitChar_digitValue digit]
  have start : value (c :: rest) = rest.foldl (fun n c => 10 * n + digitValue c) (digitValue c) := by
    simp [value]
  by_cases zero : digitValue c = 0
  · -- a zero in front is not followed by anything
    rw [zero] at first
    have leading : '0' = c := List.singleton_inj.1 first
    obtain rfl := lead rest (by rw [leading])
    rw [start, List.foldl_nil, zero, first]
  · rw [start, digits_foldl (Nat.pos_of_ne_zero zero) fun d hd => all d (List.mem_cons_of_mem c hd),
      first, List.singleton_append]

theorem value?_eq_some_iff {cs : List Char} {n : Nat} :
    value? cs = some n ↔ (cs ≠ [] ∧ ∀ c ∈ cs, c.isDigit) ∧ value cs = n := by
  simp [value?]

/-- An index is read from the text of its digits. -/
theorem canonical?_digits {n : Nat} (bound : n ≤ indexMax) : canonical? (digits n) = some n := by
  have read : value? (digits n) = some n :=
    value?_eq_some_iff.2 ⟨⟨digits_ne_nil n, fun c hc => isDigit_of_mem_digits hc⟩, value_digits n⟩
  unfold canonical?
  split
  · next c rest leading => exact absurd (digits_of_leading_zero leading) (by simp)
  · rw [read, Option.filter_some, if_pos (by simpa using bound)]

/-- What is read as an index is written by its digits. -/
theorem digits_of_canonical? {cs : List Char} {n : Nat} (h : canonical? cs = some n) : digits n = cs := by
  unfold canonical? at h
  split at h
  · cases h
  next plain =>
  obtain ⟨⟨nonempty, all⟩, rfl⟩ := value?_eq_some_iff.1 (Option.filter_eq_some_iff.1 h).1
  refine digits_value nonempty all fun rest leading => ?_
  obtain _ | ⟨c, more⟩ := rest
  · rfl
  · exact absurd leading (plain c more)

end FieldBinding.Numeral
