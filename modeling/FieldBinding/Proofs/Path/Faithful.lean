import Mathlib
import FieldBinding.Proofs.Path.Indexing
import FieldBinding.Proofs.Path.Text

/-!
# Paths that are given back by their text

A path is *faithful* if its text is read as the path.  Whatever cuts a faithful path or puts indexes into its
brackets leaves it faithful.  A key and a name come from outside, and may hold any characters; they leave a path
faithful exactly if they cannot be taken for anything else in its text.

Main results:

* `Path.Faithful.modifyAt` — new content of brackets keeps a path faithful if the segment stays legible.
* `Segment.Legible.withIndex`, `Segment.legible_withKey_iff`, `Segment.legible_field_iff` — which segments are
  legible.
* `Path.Faithful.operations` — the operations on paths, all in one.
-/

namespace FieldBinding

/-! ## Legible segments -/

namespace Segment

variable {s : Segment}

/-- A slash in brackets or in the name of a segment is a slash in its expression. -/
theorem slash_mem_expression_iff {b : Bracket} (bracket : s.selector.bracket? = some b) :
    '/' ∈ s.expression.toList ↔ '/' ∈ s.name.toList ∨ '/' ∈ s.selector.inner.toList := by
  have opening : '/' ≠ b.opening := by
    cases b with
    | element kind => cases kind <;> decide
    | entry => decide
  have closing : '/' ≠ b.closing := by
    cases b with
    | element kind => cases kind <;> decide
    | entry => decide
  simp [expression, String.toList_append, Selector.toList_text bracket, opening, closing]

theorem name_of_legible (legible : s.Legible) (collection : s.isCollection) : '/' ∉ s.name.toList := by
  obtain ⟨b, bracket⟩ := Option.isSome_iff_exists.1 collection
  exact fun slash => legible.single ((slash_mem_expression_iff bracket).2 (.inl slash))

/-- Digits are neither slashes nor brackets. -/
theorem not_mem_text {n : Nat} {c : Char} (other : c.isDigit = false) : c ∉ (Numeral.text n).toList := by
  intro mem
  rw [Numeral.text, String.toList_ofList] at mem
  rw [Numeral.isDigit_of_mem_digits mem] at other
  cases other

/-- A key leaves brackets legible exactly if there is one, and it neither opens braces nor ends the segment. -/
theorem legible_withKey_iff (legible : s.Legible) (map : s.selector.bracket? = some .entry) (key : String) :
    (s.withKey key).Legible ↔ key ≠ "" ∧ '/' ∉ key.toList ∧ '{' ∉ key.toList := by
  have name := name_of_legible legible (by rw [isCollection, map]; rfl)
  obtain ⟨text, selector, isRoot⟩ := s
  cases selector with
  | plain => cases map
  | element kind index => cases map
  | entry old =>
    have readable := readable_entry_iff (s := ⟨text, .entry (some key), isRoot⟩) rfl
    have slash := slash_mem_expression_iff (s := ⟨text, .entry (some key), isRoot⟩) (b := .entry) rfl
    constructor
    · rintro ⟨read, single⟩
      obtain ⟨nonempty, absent⟩ := readable.1 read
      exact ⟨nonempty, fun mem => single (slash.2 (.inr mem)), absent⟩
    · rintro ⟨nonempty, single, absent⟩
      exact ⟨readable.2 ⟨nonempty, absent⟩, fun mem => (slash.1 mem).elim name single⟩

/-- An index that a position can have leaves brackets legible. -/
theorem Legible.withIndex (legible : s.Legible) {n : Nat} (bound : n ≤ Numeral.indexMax) :
    (s.withIndex n).Legible := by
  obtain ⟨name, selector, isRoot⟩ := s
  cases selector with
  | plain => exact legible
  | element kind index =>
    have nameless := name_of_legible legible rfl
    refine ⟨readable_element bound rfl, fun mem => ?_⟩
    exact ((slash_mem_expression_iff (b := .element kind) rfl).1 mem).elim nameless (not_mem_text rfl)
  | entry key =>
    have nonempty : Numeral.text n ≠ "" := by
      intro empty
      exact Numeral.digits_ne_nil n (String.ofList_injective (empty.trans rfl))
    exact (legible_withKey_iff legible rfl (Numeral.text n)).2 ⟨nonempty, not_mem_text rfl, not_mem_text rfl⟩

/-- A plain name is legible exactly if it does not end the segment and has not the form of a collection. -/
theorem legible_field_iff (name : String) : (field name).Legible ↔
    '/' ∉ name.toList ∧ ¬∃ front selector, Bracketed name.toList front selector := by
  have readable := readable_plain_iff (s := field name) rfl
  have written : (field name).expression.toList = name.toList := by
    simp [field, expression, Selector.text, Selector.bracket?]
  constructor
  · rintro ⟨read, single⟩
    rw [written] at single
    refine ⟨single, ?_⟩
    rintro ⟨front, selector, form⟩
    exact readable.1 read front selector form
  · rintro ⟨single, plain⟩
    exact ⟨readable.2 fun front selector form => plain ⟨front, selector, form⟩, by rwa [written]⟩

end Segment

namespace Path

/-- A path that is given back by its text. -/
def Faithful (p : Path) : Prop :=
  parse p.text = .ok p

variable {p : Path}

theorem Spelled.legible (spelled : p.Spelled) {s : Segment} (h : s ∈ p.segments) : s.Legible := by
  rcases List.mem_cons.1 h with rfl | h
  · exact spelled.head_legible
  · exact (spelled.tail s h).1

/-! ## Changing a segment -/

theorem mem_modify {α : Type} {l : List α} {n : Nat} {f : α → α} {a : α} (h : a ∈ l.modify n f) :
    a ∈ l ∨ ∃ b, l[n]? = some b ∧ a = f b := by
  obtain ⟨k, hk⟩ := List.mem_iff_getElem?.1 h
  rw [List.getElem?_modify] at hk
  obtain ⟨b, hb, rfl⟩ := Option.map_eq_some_iff.1 hk
  by_cases here : n = k
  · subst here
    exact .inr ⟨b, hb, by simp⟩
  · exact .inl (by simpa [here] using List.mem_of_getElem? hb)

/-- A path stays faithful if a segment with brackets gets others, under its name, and stays legible. -/
theorem Faithful.modifyAt (faithful : p.Faithful) {position : Nat} {s : Segment}
    (found : p.segments[position]? = some s) {f : Segment → Segment} (legible : (f s).Legible)
    (name : (f s).name = s.name) (isRoot : (f s).isRoot = s.isRoot) (collection : s.isCollection)
    (still : (f s).isCollection) : (p.modifyAt f position).Faithful := by
  obtain ⟨spelled, unambiguous⟩ := parse_text_iff.1 faithful
  refine parse_text_iff.2 ?_
  cases position with
  | zero =>
    obtain rfl : p.head = s := Option.some.inj found
    -- brackets at the root are there without a name, before and after
    obtain ⟨anonymous, root⟩ : p.head.Anonymous ∧ p.head.isRoot = true := by
      refine spelled.head.resolve_left fun plain => ?_
      rw [plain] at collection
      cases collection
    refine ⟨⟨.inr ⟨⟨name.trans anonymous.1, still⟩, isRoot.trans root⟩, legible, spelled.tail⟩, ?_⟩
    intro plain
    rw [show f p.head = .root from plain] at still
    cases still
  | succ n =>
    have child : p.tail[n]? = some s := found
    have stays := spelled.tail s (List.mem_of_getElem? child)
    refine ⟨⟨spelled.head, spelled.head_legible, fun t ht => ?_⟩, fun plain t ht => ?_⟩
    · rcases mem_modify ht with old | ⟨b, hb, rfl⟩
      · exact spelled.tail t old
      · obtain rfl : b = s := Option.some.inj (hb.symm.trans child)
        exact ⟨legible, isRoot.trans stays.2.1, Segment.expression_ne_nil still⟩
    · have apart := unambiguous plain
      rw [Path.modifyAt, List.head?_eq_getElem?, List.getElem?_modify, ← List.head?_eq_getElem?] at ht
      obtain ⟨b, hb, rfl⟩ := Option.map_eq_some_iff.1 ht
      by_cases here : n = 0
      · subst here
        obtain rfl : b = s := Option.some.inj (hb.symm.trans (by rwa [List.head?_eq_getElem?]))
        simp only [if_true]
        exact fun anonymous => apart b hb ⟨name.symm.trans anonymous.1, collection⟩
      · simp only [here, if_false]
        exact apart b hb

/-! ## Shortening and lengthening -/

/-- A path stays faithful if segments are cut off behind. -/
theorem Faithful.cut (faithful : p.Faithful) {tail : List Segment} (front : tail <+: p.tail) :
    (Path.mk p.head tail).Faithful := by
  obtain ⟨spelled, unambiguous⟩ := parse_text_iff.1 faithful
  refine parse_text_iff.2 ⟨⟨spelled.head, spelled.head_legible, fun s hs => spelled.tail s (front.subset hs)⟩, ?_⟩
  intro plain s hs
  obtain ⟨rest, same⟩ := front
  refine unambiguous plain s ?_
  obtain ⟨others, rfl⟩ := List.head?_eq_some_iff.1 hs
  rw [← same]
  rfl

/-- A path stays faithful with a plain segment behind it exactly if the segment is legible and has a name. -/
theorem Faithful.child_iff (faithful : p.Faithful) (name : String) :
    (p.child name).Faithful ↔ name ≠ "" ∧ (Segment.field name).Legible := by
  obtain ⟨spelled, unambiguous⟩ := parse_text_iff.1 faithful
  have written : (Segment.field name).expression.toList = name.toList := by
    simp [Segment.field, Segment.expression, Selector.text, Selector.bracket?]
  have last : Segment.field name ∈ (p.child name).tail := by simp [child]
  constructor
  · intro child
    obtain ⟨legible, -, nonempty⟩ := (parse_text_iff.1 child).1.tail _ last
    rw [written] at nonempty
    exact ⟨by simpa using nonempty, legible⟩
  · rintro ⟨nonempty, legible⟩
    refine parse_text_iff.2 ⟨⟨spelled.head, spelled.head_legible, fun s hs => ?_⟩, fun plain s hs => ?_⟩
    · rcases List.mem_append.1 hs with old | new
      · exact spelled.tail s old
      · rw [List.mem_singleton.1 new, written]
        exact ⟨legible, rfl, by simpa using nonempty⟩
    · rw [child, List.head?_append, Option.mem_def, Option.or_eq_some_iff] at hs
      rcases hs with old | ⟨-, new⟩
      · exact unambiguous plain s old
      · rw [List.head?_cons, Option.some.injEq] at new
        subst new
        exact fun anonymous => by cases anonymous.2

/-! ## Filling brackets -/

theorem Faithful.withIndexAt (faithful : p.Faithful) {position : Nat} {index : Int} {q : Path}
    (bound : index ≤ Numeral.indexMax) (h : p.withIndexAt position index = .ok q) : q.Faithful := by
  obtain ⟨s, found, collection, natural, rfl⟩ := withIndexAt_ok h
  have legible := (parse_text_iff.1 faithful).1.legible (List.mem_of_getElem? found)
  exact faithful.modifyAt found (legible.withIndex (by omega)) (Segment.name_withIndex s _)
    (Segment.isRoot_withIndex s _) collection (by rwa [Segment.isCollection_withIndex])

theorem Faithful.withIndex (faithful : p.Faithful) {segment : String} {index : Int} {q : Path}
    (bound : index ≤ Numeral.indexMax) (h : p.withIndex segment index = .ok q) : q.Faithful := by
  unfold Path.withIndex at h
  split at h
  · cases h
  · exact faithful.withIndexAt bound h

theorem Faithful.withVacantIndex (faithful : p.Faithful) {index : Int} {q : Path}
    (bound : index ≤ Numeral.indexMax) (h : p.withVacantIndex index = .ok q) : q.Faithful := by
  unfold Path.withVacantIndex at h
  split at h
  · cases h
  · exact faithful.withIndexAt bound h

/-- A key in the braces of a segment keeps a path faithful exactly if the segment stays legible. -/
theorem Faithful.withKeyAt_iff (faithful : p.Faithful) {position : Nat} {s : Segment} (key : String)
    (found : p.segments[position]? = some s) (map : s.selector.bracket? = some .entry) :
    ∃ q, p.withKeyAt position key = .ok q ∧
      (q.Faithful ↔ key ≠ "" ∧ '/' ∉ key.toList ∧ '{' ∉ key.toList) := by
  have legible := (parse_text_iff.1 faithful).1.legible (List.mem_of_getElem? found)
  have legible_iff := Segment.legible_withKey_iff legible map key
  obtain ⟨name, selector, isRoot⟩ := s
  cases selector with
  | plain => cases map
  | element kind index => cases map
  | entry old =>
    refine ⟨p.modifyAt (·.withKey key) position, by rw [Path.withKeyAt, found], ?_⟩
    rw [← legible_iff]
    constructor
    · intro after
      have there := getElem?_segments_modifyAt found (·.withKey key)
      exact (parse_text_iff.1 after).1.legible (List.mem_of_getElem? there)
    · exact fun after => faithful.modifyAt found after rfl rfl rfl rfl

/-! ## All operations -/

/-- A faithful path stays faithful when an index is put into its brackets, wherever it is put, and when the path is
cut off behind.  With a key in braces it does exactly if the key is not empty and holds neither a slash nor an
opening brace, and with a name behind it exactly if the name is not empty, holds no slash and has not the form of a
collection. -/
theorem Faithful.operations (faithful : p.Faithful) :
    (∀ (position : Nat) (index : Int) (q : Path), index ≤ Numeral.indexMax →
      p.withIndexAt position index = .ok q → q.Faithful) ∧
    (∀ (segment : String) (index : Int) (q : Path), index ≤ Numeral.indexMax →
      p.withIndex segment index = .ok q → q.Faithful) ∧
    (∀ (index : Int) (q : Path), index ≤ Numeral.indexMax → p.withVacantIndex index = .ok q → q.Faithful) ∧
    p.parent.Faithful ∧ (∀ position, (p.upTo position).Faithful) ∧
    (∀ (position : Nat) (s : Segment) (key : String), p.segments[position]? = some s →
      s.selector.bracket? = some .entry → ∃ q, p.withKeyAt position key = .ok q ∧
        (q.Faithful ↔ key ≠ "" ∧ '/' ∉ key.toList ∧ '{' ∉ key.toList)) ∧
    ∀ name : String, (p.child name).Faithful ↔ name ≠ "" ∧ '/' ∉ name.toList ∧
      ¬∃ front selector, Segment.Bracketed name.toList front selector := by
  refine ⟨fun _ _ _ bound => faithful.withIndexAt bound, fun _ _ _ bound => faithful.withIndex bound,
    fun _ _ bound => faithful.withVacantIndex bound, faithful.cut (List.dropLast_prefix _),
    fun position => faithful.cut (List.take_prefix position _),
    fun _ _ key => faithful.withKeyAt_iff key, fun name => ?_⟩
  rw [faithful.child_iff, Segment.legible_field_iff]

/-- The path `/rows<>/m{k}` takes an index in its first brackets and no key with a slash in its second; behind it
`x` can stand, and `x[0]` cannot. -/
theorem Faithful.operations_rows :
    let p : Path := ⟨Segment.root, [⟨"rows", .element .list none, false⟩, ⟨"m", .entry (some "k"), false⟩]⟩
    p.Faithful ∧ (∃ q, p.withIndexAt 1 3 = .ok q ∧ q.Faithful) ∧ (p.upTo 1).Faithful ∧
      (∃ q, p.withKeyAt 2 "a/b" = .ok q ∧ ¬q.Faithful) ∧ (∃ q, p.withKeyAt 2 "[0]" = .ok q ∧ q.Faithful) ∧
      (p.child "x").Faithful ∧ ¬(p.child "x[0]").Faithful := by
  intro p
  have faithful : p.Faithful := by cbv
  have plain : ¬∃ front selector, Segment.Bracketed "x".toList front selector := by
    rintro ⟨front, selector, bracketed⟩
    cases Segment.bracketed?_eq_some_iff.2 bracketed
  obtain ⟨indexAt, -, -, -, front, keyAt, child⟩ := Faithful.operations faithful
  obtain ⟨slashed, hslashed, slashed_iff⟩ := keyAt 2 _ "a/b" rfl rfl
  obtain ⟨nested, hnested, nested_iff⟩ := keyAt 2 _ "[0]" rfl rfl
  refine ⟨faithful, ⟨_, rfl, indexAt 1 3 _ (by decide) rfl⟩, front 1,
    ⟨slashed, hslashed, fun h => (slashed_iff.1 h).2.1 (by decide)⟩, ⟨nested, hnested, nested_iff.2 (by decide)⟩,
    (child "x").2 ⟨by decide, by decide, plain⟩, fun h => ((child "x[0]").1 h).2.2 ?_⟩
  exact ⟨['x'], .element .array (some 0), .element .array, ['0'], rfl, by decide, rfl⟩

end Path

end FieldBinding
