import Mathlib.Data.List.Induction
import Mathlib.Data.Nat.Digits.Defs
import FieldBinding.Proofs.Path.Spelling

/-!
# The grammar of a segment

What a piece of text between two slashes says is laid down without reading it.  A *numeral* is a run of digits without
a superfluous zero in front, and stands for the sum of its digits at their places.  Brackets of a kind *hold* nothing,
a numeral, or a key.  A piece *divides* into a name and brackets if the brackets close with its last character, open at
the last character that can open them, and hold what they select.

A piece divides in one way or not at all, and it is read accordingly.

Main results:

* `Numeral.canonical?_eq_some_iff` — an index is read exactly from a numeral that is not too great.
* `Bracket.selector?_eq_some_iff` — a selector is read exactly from what brackets of its kind can hold.
* `Segment.ofPiece_grammar` — how every piece is read.
-/

namespace FieldBinding

-- Powers are those of the core library, whatever other instances are in sight.
attribute [local instance (2000)] instPowNat

/-! ## Numerals -/

namespace Numeral

/-- A decimal numeral: digits without a sign, and without a zero in front of other digits. -/
structure IsNumeral (cs : List Char) : Prop where
  nonempty : cs ≠ []
  digits : ∀ c ∈ cs, '0' ≤ c ∧ c ≤ '9'
  lead : ∀ rest, cs = '0' :: rest → rest = []

/-- The sum of the digits at their places. -/
def placeValue (cs : List Char) : Nat :=
  Nat.ofDigits 10 (cs.reverse.map digitValue)

theorem isDigit_iff {c : Char} : c.isDigit = true ↔ '0' ≤ c ∧ c ≤ '9' := by
  simp [Char.isDigit, Char.le_def]

theorem placeValue_append_singleton (cs : List Char) (c : Char) :
    placeValue (cs ++ [c]) = digitValue c + 10 * placeValue cs := by
  simp [placeValue, Nat.ofDigits_cons]

/-- Reading digits from the front gives the sum at their places. -/
theorem value_eq_placeValue (cs : List Char) : value cs = placeValue cs := by
  induction cs using List.reverseRecOn with
  | nil => rfl
  | append_singleton cs c ih =>
    rw [value_append_singleton, placeValue_append_singleton, ih, Nat.add_comm]

/-- An index is read exactly from a numeral that is not too great. -/
theorem canonical?_eq_some_iff {cs : List Char} {n : Nat} :
    canonical? cs = some n ↔ IsNumeral cs ∧ placeValue cs = n ∧ n < 2 ^ (64 : Nat) := by
  have bound : ∀ m, m ≤ indexMax ↔ m < 2 ^ (64 : Nat) := fun m => by
    have : indexMax + 1 = 2 ^ (64 : Nat) := rfl
    omega
  constructor
  · intro h
    have spelled := digits_of_canonical? h
    have isDigit : ∀ c ∈ cs, c.isDigit := fun c hc => isDigit_of_mem_digits (spelled ▸ hc)
    have small : n ≤ indexMax := by
      unfold canonical? at h
      split at h
      · cases h
      · exact of_decide_eq_true (Option.filter_eq_some_iff.1 h).2
    refine ⟨⟨?_, fun c hc => isDigit_iff.1 (isDigit c hc), fun rest lead => ?_⟩, ?_, (bound n).1 small⟩
    · exact spelled ▸ digits_ne_nil n
    · exact digits_of_leading_zero (spelled.trans lead)
    · rw [← value_eq_placeValue, ← spelled, value_digits]
  · rintro ⟨numeral, rfl, small⟩
    have spelled : digits (value cs) = cs :=
      digits_value numeral.nonempty (fun c hc => isDigit_iff.2 (numeral.digits c hc)) numeral.lead
    have read := canonical?_digits (n := value cs) ((bound _).2 (value_eq_placeValue cs ▸ small))
    rwa [spelled, value_eq_placeValue] at read

end Numeral

/-! ## Brackets -/

/-- What brackets of a kind hold and select: nothing selects every place, a numeral selects the element with that
index, and any other text in braces selects the entry with that key. -/
inductive Bracket.Holds : Bracket → List Char → Selector → Prop where
  | elements (kind : SequenceKind) : Holds (.element kind) [] (.element kind none)
  | element (kind : SequenceKind) {inner : List Char} (numeral : Numeral.IsNumeral inner)
      (bound : Numeral.placeValue inner < 2 ^ (64 : Nat)) :
      Holds (.element kind) inner (.element kind (some (Numeral.placeValue inner)))
  | entries : Holds .entry [] (.entry none)
  | entry {inner : List Char} (nonempty : inner ≠ []) :
      Holds .entry inner (.entry (some (String.ofList inner)))

/-- A selector is read exactly from what brackets of its kind can hold. -/
theorem Bracket.selector?_eq_some_iff {b : Bracket} {inner : List Char} {selector : Selector} :
    b.selector? inner = some selector ↔ b.Holds inner selector := by
  constructor
  · intro h
    unfold Bracket.selector? at h
    split at h
    · cases h
      exact .elements _
    · obtain ⟨n, number, rfl⟩ := Option.map_eq_some_iff.1 h
      obtain ⟨numeral, rfl, bound⟩ := Numeral.canonical?_eq_some_iff.1 number
      exact .element _ numeral bound
    · cases h
      exact .entries
    · next nonempty =>
      cases h
      exact .entry nonempty
  · intro h
    cases h with
    | elements kind => rfl
    | entries => rfl
    | element kind numeral bound =>
      have number := Numeral.canonical?_eq_some_iff.2 ⟨numeral, rfl, bound⟩
      obtain ⟨c, rest, rfl⟩ := List.exists_cons_of_ne_nil numeral.nonempty
      simp only [Bracket.selector?, number, Option.map_some]
    | entry nonempty =>
      obtain ⟨c, rest, rfl⟩ := List.exists_cons_of_ne_nil nonempty
      rfl

theorem Bracket.closing_injective {b b' : Bracket} (h : b.closing = b'.closing) : b = b' := by
  have closes := b.ofClosing?_closing
  rw [h, b'.ofClosing?_closing] at closes
  exact (Option.some.inj closes).symm

/-! ## Pieces -/

namespace Segment

variable {piece name inner : List Char} {bracket : Bracket} {selector : Selector}

/-- A piece divides into a name and brackets: it ends in the character that closes them, they open at the last
character that can open them, and what stands between is what they hold. -/
structure Divides (piece : List Char) (bracket : Bracket) (name inner : List Char) (selector : Selector) : Prop where
  whole : piece = name ++ bracket.opening :: (inner ++ [bracket.closing])
  last : bracket.opening ∉ inner
  holds : bracket.Holds inner selector

theorem bracketed_iff_divides :
    Bracketed piece name selector ↔ ∃ bracket inner, Divides piece bracket name inner selector := by
  constructor
  · rintro ⟨bracket, inner, whole, last, selects⟩
    exact ⟨bracket, inner, whole, last, Bracket.selector?_eq_some_iff.1 selects⟩
  · rintro ⟨bracket, inner, whole, last, holds⟩
    exact ⟨bracket, inner, whole, last, Bracket.selector?_eq_some_iff.2 holds⟩

/-- The last character of a piece that divides closes its brackets, and without this character the piece is cut where
the brackets open. -/
theorem Divides.cut (divides : Divides piece bracket name inner selector) :
    piece.getLast? = some bracket.closing ∧ cutAtLast bracket.opening piece.dropLast = some (name, inner) := by
  have whole : piece = (name ++ bracket.opening :: inner) ++ [bracket.closing] := by
    rw [divides.whole, List.append_assoc, List.cons_append]
  rw [whole, List.getLast?_concat, List.dropLast_concat]
  exact ⟨rfl, cutAtLast_append name divides.last⟩

/-- A piece divides in one way only. -/
theorem Divides.unique {bracket' : Bracket} {name' inner' : List Char} {selector' : Selector}
    (h : Divides piece bracket name inner selector) (h' : Divides piece bracket' name' inner' selector') :
    bracket = bracket' ∧ name = name' ∧ inner = inner' ∧ selector = selector' := by
  obtain ⟨last, cut⟩ := h.cut
  obtain ⟨last', cut'⟩ := h'.cut
  obtain rfl : bracket = bracket' := Bracket.closing_injective (Option.some.inj (last.symm.trans last'))
  obtain ⟨rfl, rfl⟩ := Prod.mk.inj (Option.some.inj (cut.symm.trans cut'))
  have selects := Bracket.selector?_eq_some_iff.2 h.holds
  rw [Bracket.selector?_eq_some_iff.2 h'.holds] at selects
  exact ⟨rfl, rfl, rfl, (Option.some.inj selects).symm⟩

/-- How every piece is read.  A piece that divides is read as the name with the brackets, any other piece as a plain
name; it is written as it was; and it does not divide in a second way. -/
theorem ofPiece_grammar (isRoot : Bool) (piece : List Char) :
    (∀ bracket name inner selector, Divides piece bracket name inner selector →
        selector.bracket? = some bracket ∧
          ofPiece isRoot piece = ⟨String.ofList name, selector, isRoot⟩) ∧
      ((∀ bracket name inner selector, ¬Divides piece bracket name inner selector) →
        ofPiece isRoot piece = ⟨String.ofList piece, .plain, isRoot⟩) ∧
      (ofPiece isRoot piece).expression = String.ofList piece ∧
      ∀ bracket name inner selector bracket' name' inner' selector',
        Divides piece bracket name inner selector → Divides piece bracket' name' inner' selector' →
          bracket = bracket' ∧ name = name' ∧ inner = inner' ∧ selector = selector' := by
  refine ⟨fun bracket name inner selector divides => ⟨?_, ?_⟩, fun plain => ?_, ?_,
    fun _ _ _ _ _ _ _ _ divides divides' => divides.unique divides'⟩
  · exact (Bracket.selector?_spelled (Bracket.selector?_eq_some_iff.2 divides.holds)).1
  · exact ofPiece_of_bracketed isRoot (bracketed_iff_divides.2 ⟨bracket, inner, divides⟩)
  · refine ofPiece_of_plain isRoot fun name selector bracketed => ?_
    obtain ⟨bracket, inner, divides⟩ := bracketed_iff_divides.1 bracketed
    exact plain bracket name inner selector divides
  · rw [← String.ofList_toList (s := (ofPiece isRoot piece).expression), expression_ofPiece]

/-- The brackets open at the last character that can open them, and a sign makes an index a name. -/
example : ofPiece false "a[<[7]".toList = ⟨"a[<", .element .array (some 7), false⟩ ∧
    ofPiece false "a[+7]".toList = ⟨"a[+7]", .plain, false⟩ := by
  constructor <;> cbv

end Segment

end FieldBinding
