import FieldBinding.Path.Segment
import FieldBinding.Proofs.Numeral.Canonical

/-!
# The spelling of a segment

A piece of text has the form of a collection if it is a name with closed brackets behind it that hold a selector;
the brackets open at the last character that can open them.  `Segment.Bracketed` says so without looking for the
brackets, and `Segment.bracketed?` finds exactly what it describes.

Reading loses nothing, so a segment that has been read is written as it was.  The converse needs more: a segment
is `Readable` if reading its expression gives the segment back.

Main results:

* `Segment.bracketed?_eq_some_iff` — a piece is read as brackets exactly if it has their form.
* `Segment.expression_ofPiece` — a segment is written as the piece that it has been read from.
* `Segment.readable_element`, `Segment.readable_entry_iff`, `Segment.readable_plain_iff` — which segments are
  readable.
-/

namespace FieldBinding

theorem Bracket.ofClosing?_closing (b : Bracket) : Bracket.ofClosing? b.closing = some b := by
  cases b with
  | element kind => cases kind <;> rfl
  | entry => rfl

/-- Brackets hold the text that their selector has been read from. -/
theorem Bracket.selector?_spelled {b : Bracket} {inner : List Char} {selector : Selector}
    (h : b.selector? inner = some selector) :
    selector.bracket? = some b ∧ selector.inner.toList = inner := by
  unfold Bracket.selector? at h
  split at h
  · cases h
    exact ⟨rfl, rfl⟩
  · obtain ⟨n, number, rfl⟩ := Option.map_eq_some_iff.1 h
    refine ⟨rfl, ?_⟩
    rw [Selector.inner, Numeral.text, String.toList_ofList, Numeral.digits_of_canonical? number]
  · cases h
    exact ⟨rfl, rfl⟩
  · cases h
    exact ⟨rfl, String.toList_ofList⟩

theorem Selector.toList_text {selector : Selector} {b : Bracket} (h : selector.bracket? = some b) :
    selector.text.toList = b.opening :: (selector.inner.toList ++ [b.closing]) := by
  simp [Selector.text, h, String.toList_append]

namespace Segment

variable {c : Char} {name piece : List Char} {selector : Selector}

/-! ## Brackets in a text -/

theorem cutAtLast_eq_none_iff {text : List Char} : cutAtLast c text = none ↔ c ∉ text := by
  induction text with
  | nil => simp [cutAtLast]
  | cons d rest ih =>
    rw [cutAtLast, List.mem_cons, not_or]
    cases hrest : cutAtLast c rest with
    | some cut =>
      have found : ¬c ∉ rest := fun absent => by simp [ih.2 absent] at hrest
      simp [found]
    | none =>
      have absent : c ∉ rest := ih.1 hrest
      by_cases here : d = c
      · simp [here]
      · simp [here, absent, Ne.symm here]

/-- The cut is at the last occurrence. -/
theorem not_mem_of_cutAtLast {text before after : List Char}
    (h : cutAtLast c text = some (before, after)) : c ∉ after := by
  induction text generalizing before with
  | nil => cases h
  | cons d rest ih =>
    rw [cutAtLast] at h
    cases hrest : cutAtLast c rest with
    | some cut =>
      simp only [hrest, Option.some.injEq, Prod.mk.injEq] at h
      exact ih (hrest.trans (by rw [← h.2]))
    | none =>
      simp only [hrest] at h
      split at h
      case isFalse => cases h
      cases h
      exact cutAtLast_eq_none_iff.1 hrest

theorem cutAtLast_append (before : List Char) {after : List Char} (absent : c ∉ after) :
    cutAtLast c (before ++ c :: after) = some (before, after) := by
  induction before with
  | nil => rw [List.nil_append, cutAtLast, cutAtLast_eq_none_iff.2 absent, if_pos rfl]
  | cons d rest ih => rw [List.cons_append, cutAtLast, ih]

/-- A piece that consists of a name and closed brackets with a selector in them. -/
def Bracketed (piece name : List Char) (selector : Selector) : Prop :=
  ∃ (b : Bracket) (inner : List Char), piece = name ++ b.opening :: (inner ++ [b.closing]) ∧
    b.opening ∉ inner ∧ b.selector? inner = some selector

/-- A piece is read as a name with brackets exactly if it has their form. -/
theorem bracketed?_eq_some_iff : bracketed? piece = some (name, selector) ↔ Bracketed piece name selector := by
  constructor
  · intro h
    simp only [bracketed?, Option.bind_eq_bind, Option.bind_eq_some_iff] at h
    obtain ⟨b, ⟨close, last, closes⟩, ⟨before, inner⟩, cut, found, selects, same⟩ := h
    cases same
    obtain ⟨front, rfl⟩ := List.getLast?_eq_some_iff.1 last
    rw [List.dropLast_concat] at cut
    refine ⟨b, inner, ?_, not_mem_of_cutAtLast cut, selects⟩
    rw [Bracket.closing_of_ofClosing? closes, ← List.cons_append, ← List.append_assoc,
      append_of_cutAtLast cut]
  · rintro ⟨b, inner, rfl, absent, selects⟩
    rw [← List.cons_append, ← List.append_assoc]
    unfold bracketed?
    rw [List.getLast?_concat, List.dropLast_concat, Option.bind_some, Bracket.ofClosing?_closing]
    simp only [Option.bind_eq_bind, Option.bind_some, cutAtLast_append _ absent, selects]
    rfl

theorem Bracketed.isCollection (h : Bracketed piece name selector) : selector.bracket?.isSome := by
  obtain ⟨b, inner, -, -, selects⟩ := h
  rw [(Bracket.selector?_spelled selects).1]
  rfl

theorem ofPiece_of_bracketed (isRoot : Bool) (h : Bracketed piece name selector) :
    ofPiece isRoot piece = ⟨String.ofList name, selector, isRoot⟩ := by
  rw [ofPiece, bracketed?_eq_some_iff.2 h]

theorem ofPiece_of_plain (isRoot : Bool) (h : ∀ name selector, ¬Bracketed piece name selector) :
    ofPiece isRoot piece = ⟨String.ofList piece, .plain, isRoot⟩ := by
  cases found : bracketed? piece with
  | none => rw [ofPiece, found]
  | some parts => exact absurd (bracketed?_eq_some_iff.1 found) (h _ _)

/-- A piece is read as a segment with brackets, or as a plain name. -/
theorem ofPiece_cases (isRoot : Bool) (piece : List Char) :
    (∃ name selector, Bracketed piece name selector ∧
      ofPiece isRoot piece = ⟨String.ofList name, selector, isRoot⟩) ∨
    (∀ name selector, ¬Bracketed piece name selector) ∧
      ofPiece isRoot piece = ⟨String.ofList piece, .plain, isRoot⟩ := by
  by_cases h : ∃ name selector, Bracketed piece name selector
  · obtain ⟨name, selector, bracketed⟩ := h
    exact .inl ⟨name, selector, bracketed, ofPiece_of_bracketed isRoot bracketed⟩
  · have plain : ∀ name selector, ¬Bracketed piece name selector := fun name selector bracketed =>
      h ⟨name, selector, bracketed⟩
    exact .inr ⟨plain, ofPiece_of_plain isRoot plain⟩

theorem isRoot_ofPiece (isRoot : Bool) (piece : List Char) : (ofPiece isRoot piece).isRoot = isRoot := by
  rcases ofPiece_cases isRoot piece with ⟨name, selector, -, read⟩ | ⟨-, read⟩ <;> rw [read]

/-- Reading a piece loses nothing: the segment is written as the piece. -/
theorem expression_ofPiece (isRoot : Bool) (piece : List Char) :
    (ofPiece isRoot piece).expression.toList = piece := by
  rcases ofPiece_cases isRoot piece with ⟨name, selector, ⟨b, inner, rfl, -, selects⟩, read⟩ | ⟨-, read⟩
  · obtain ⟨bracket, spelled⟩ := Bracket.selector?_spelled selects
    rw [read, expression, String.toList_append, String.toList_ofList, Selector.toList_text bracket, spelled]
  · rw [read]
    simp [expression, Selector.text, Selector.bracket?]

/-! ## Anonymous collections -/

/-- A piece that is brackets without a name. -/
def AnonymousPiece (piece : List Char) : Prop :=
  ∃ selector, Bracketed piece [] selector

/-- A segment that is brackets without a name. -/
def Anonymous (s : Segment) : Prop :=
  s.name = "" ∧ s.isCollection

theorem anonymous_ofPiece_iff (isRoot : Bool) (piece : List Char) :
    (ofPiece isRoot piece).Anonymous ↔ AnonymousPiece piece := by
  constructor
  · intro h
    rcases ofPiece_cases isRoot piece with ⟨name, selector, bracketed, read⟩ | ⟨-, read⟩
    · rw [read] at h
      obtain rfl : name = [] := String.ofList_injective (h.1.trans rfl)
      exact ⟨selector, bracketed⟩
    · rw [read] at h
      cases h.2
  · rintro ⟨selector, bracketed⟩
    rw [ofPiece_of_bracketed isRoot bracketed]
    exact ⟨rfl, bracketed.isCollection⟩

/-! ## Readable segments -/

/-- A segment that is given back by reading what it is written as. -/
def Readable (s : Segment) : Prop :=
  ofPiece s.isRoot s.expression.toList = s

theorem readable_ofPiece (isRoot : Bool) (piece : List Char) : (ofPiece isRoot piece).Readable := by
  rw [Readable, isRoot_ofPiece, expression_ofPiece]

/-- A segment with brackets is readable if they do not open again within themselves, and their content is read
as their selector. -/
theorem readable_of_bracket {s : Segment} {b : Bracket} (bracket : s.selector.bracket? = some b)
    (absent : b.opening ∉ s.selector.inner.toList)
    (selects : b.selector? s.selector.inner.toList = some s.selector) : s.Readable := by
  have bracketed : Bracketed s.expression.toList s.name.toList s.selector :=
    ⟨b, _, by rw [expression, String.toList_append, Selector.toList_text bracket], absent, selects⟩
  rw [Readable, ofPiece_of_bracketed s.isRoot bracketed, String.ofList_toList]

/-- An index that is not too great can be read again. -/
theorem readable_element {s : Segment} {kind : SequenceKind} {n : Nat} (bound : n ≤ Numeral.indexMax)
    (h : s.selector = .element kind (some n)) : s.Readable := by
  have digits : s.selector.inner.toList = Numeral.digits n := by
    rw [h, Selector.inner, Numeral.text, String.toList_ofList]
  refine readable_of_bracket (b := .element kind) (by rw [h]; rfl) ?_ ?_
  · intro opens
    rw [digits] at opens
    have digit := Numeral.isDigit_of_mem_digits opens
    cases kind <;> exact absurd digit (by decide)
  · obtain ⟨c, rest, hcons⟩ := List.exists_cons_of_ne_nil (Numeral.digits_ne_nil n)
    rw [digits, h, hcons]
    simp only [Bracket.selector?, ← hcons, Numeral.canonical?_digits bound, Option.map_some]

/-- A key can be read again exactly if there is one and it does not open braces. -/
theorem readable_entry_iff {s : Segment} {key : String} (h : s.selector = .entry (some key)) :
    s.Readable ↔ key ≠ "" ∧ '{' ∉ key.toList := by
  constructor
  · intro readable
    rcases ofPiece_cases s.isRoot s.expression.toList with ⟨name, selector, bracketed, read⟩ | ⟨-, read⟩
    · have same : selector = .entry (some key) := by
        rw [← h, ← congrArg Segment.selector (read.symm.trans readable)]
      obtain ⟨b, inner, -, absent, selects⟩ := bracketed
      rw [same] at selects
      obtain ⟨bracket, spelled⟩ := Bracket.selector?_spelled selects
      cases bracket
      simp only [Selector.inner] at spelled
      subst spelled
      refine ⟨?_, absent⟩
      rintro rfl
      cases selects
    · have plain := congrArg Segment.selector (read.symm.trans readable)
      rw [h] at plain
      cases plain
  · rintro ⟨nonempty, absent⟩
    refine readable_of_bracket (b := .entry) (by rw [h]; rfl) (by rw [h]; exact absent) ?_
    have chars : key.toList ≠ [] := by simpa using nonempty
    obtain ⟨c, rest, hcons⟩ := List.exists_cons_of_ne_nil chars
    rw [h]
    simp only [Selector.inner, hcons, Bracket.selector?]
    rw [← hcons, String.ofList_toList]

/-- A plain name can be read again exactly if it has not the form of a collection. -/
theorem readable_plain_iff {s : Segment} (h : s.selector = .plain) :
    s.Readable ↔ ∀ name selector, ¬Bracketed s.name.toList name selector := by
  have chars : s.expression.toList = s.name.toList := by
    simp [expression, h, Selector.text, Selector.bracket?]
  rw [Readable, chars]
  constructor
  · intro readable name selector bracketed
    have same := congrArg Segment.selector ((ofPiece_of_bracketed s.isRoot bracketed).symm.trans readable)
    have brackets := bracketed.isCollection
    rw [show selector = .plain from same.trans h] at brackets
    cases brackets
  · intro plain
    rw [ofPiece_of_plain s.isRoot plain, String.ofList_toList, ← h]

end Segment

end FieldBinding
