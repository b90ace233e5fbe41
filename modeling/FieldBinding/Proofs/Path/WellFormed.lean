import FieldBinding.Path.Basic

/-!
# Paths that are written

A path that is read from a text has a root without a name, and below the root a segment without a name has at
least brackets: an empty piece between slashes is skipped.
-/

namespace FieldBinding

/-- Whether a segment has a name or brackets. -/
def Segment.Written (s : Segment) : Prop :=
  s.name = "" → s.isCollection

namespace Path

/-- The form of every path that a text writes. -/
structure WellFormed (p : Path) : Prop where
  head_name : p.head.name = ""
  written : ∀ s ∈ p.tail, s.Written

end Path

theorem Bracket.isCollection_of_selector? {b : Bracket} {inner : List Char} {selector : Selector}
    (h : b.selector? inner = some selector) : selector.bracket?.isSome := by
  unfold Bracket.selector? at h
  split at h
  case h_2 =>
    obtain ⟨n, -, rfl⟩ := Option.map_eq_some_iff.1 h
    rfl
  all_goals
    rw [Option.some.injEq] at h
    subst h
    rfl

theorem Segment.written_ofPiece (isRoot : Bool) {piece : List Char} (nonempty : piece ≠ []) :
    (Segment.ofPiece isRoot piece).Written := by
  unfold Segment.ofPiece
  cases h : Segment.bracketed? piece with
  | none =>
    intro named
    exact absurd (String.ofList_injective (named.trans rfl)) nonempty
  | some found =>
    obtain ⟨name, selector⟩ := found
    simp only [Segment.bracketed?, Option.bind_eq_bind, Option.bind_eq_some_iff] at h
    obtain ⟨b, -, ⟨_, inner⟩, -, selector', hselector, same⟩ := h
    cases same
    exact fun _ => Bracket.isCollection_of_selector? hselector

namespace Path

theorem written_below (pieces : List (List Char)) :
    ∀ s ∈ (pieces.filter (!·.isEmpty)).map (Segment.ofPiece false), s.Written := by
  intro s hs
  obtain ⟨piece, hpiece, rfl⟩ := List.mem_map.1 hs
  have nonempty := (List.mem_filter.1 hpiece).2
  exact Segment.written_ofPiece false (by simpa using nonempty)

/-- Every path that a text writes is well-formed. -/
theorem wellFormed_of_parse {text : String} {p : Path} (h : parse text = .ok p) : p.WellFormed := by
  unfold parse at h
  split at h
  case isTrue => cases h
  rw [Except.ok.injEq] at h
  subst h
  unfold ofPieces
  simp only
  split
  · exact ⟨rfl, by simp [root]⟩
  · split
    · next root_named => exact ⟨root_named.1, written_below _⟩
    · exact ⟨rfl, written_below _⟩

end Path

end FieldBinding
