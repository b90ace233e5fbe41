import FieldBinding.Text.Blank

/-!
# Cutting a text into pieces

A *cut* finds the first place where a text can be divided and returns what stands before and after it.
`Text.cutAt d` cuts at the first occurrence of the separator `d`, `Text.cutBlank` at the first run of white
space.  `Text.pieces cut n` cuts at most `n` times from the left, so that the last piece keeps whatever has
not been divided.

The separator may be empty.  Then the text is divided in front of its first character, behind its last one
and between any two neighbours (`Text.piecesEach`).

`Text.words` is the independent reading of white-space cutting: the maximal runs of other characters.
-/

namespace FieldBinding.Text

/-! ## One cut -/

/-- The text before and after the first occurrence of the non-empty separator `d`. -/
def cutAt (d : List Char) : List Char → Option (List Char × List Char)
  | [] => none
  | c :: rest =>
    if d.isPrefixOf (c :: rest) then some ([], (c :: rest).drop d.length)
    else (cutAt d rest).map fun parts => (c :: parts.1, parts.2)

/-- The text before and after the first run of white space. -/
def cutBlank (text : List Char) : Option (List Char × List Char) :=
  match text.dropWhile (fun c => !isBlank c) with
  | [] => none
  | rest => some (text.takeWhile (fun c => !isBlank c), trimStart rest)

/-- Nothing is lost by a cut: the two sides with the separator between them are the text. -/
theorem append_of_cutAt {d text before after : List Char}
    (h : cutAt d text = some (before, after)) : before ++ (d ++ after) = text := by
  induction text generalizing before with
  | nil => simp [cutAt] at h
  | cons c rest ih =>
    rw [cutAt] at h
    split at h
    · next hd =>
      obtain ⟨tail, htail⟩ := List.isPrefixOf_iff_prefix.1 hd
      simp only [Option.some.injEq, Prod.mk.injEq] at h
      obtain ⟨rfl, rfl⟩ := h
      simp [← htail]
    · obtain ⟨⟨b, a⟩, hcut, hparts⟩ := Option.map_eq_some_iff.1 h
      simp only [Prod.mk.injEq] at hparts
      obtain ⟨rfl, rfl⟩ := hparts
      simpa using ih hcut

/-! ## Several cuts -/

/-- The pieces of a text under at most `n` cuts from the left; the last piece is what remains. -/
def pieces (cut : List Char → Option (List Char × List Char)) : Nat → List Char → List (List Char)
  | 0, text => [text]
  | n + 1, text =>
    match cut text with
    | none => [text]
    | some (before, after) => before :: pieces cut n after

/-- The single characters of a text under at most `n` cuts, with what remains behind them. -/
def piecesEach : Nat → List Char → List (List Char)
  | 0, text => [text]
  | _ + 1, [] => [[]]
  | n + 1, c :: rest => [c] :: piecesEach n rest

/-- The pieces of a text under at most `n` cuts at the separator `d`.  An empty separator occurs in front
of the text, behind it and between any two of its characters. -/
def piecesAt (d : List Char) (n : Nat) (text : List Char) : List (List Char) :=
  match d, n with
  | [], 0 => [text]
  | [], n + 1 => [] :: piecesEach n text
  | _ :: _, n => pieces (cutAt d) n text

theorem pieces_ne_nil (cut : List Char → Option (List Char × List Char)) (n : Nat) (text : List Char) :
    pieces cut n text ≠ [] := by
  cases n with
  | zero => simp [pieces]
  | succ n => rw [pieces]; split <;> simp

theorem length_pieces_le (cut : List Char → Option (List Char × List Char)) (n : Nat)
    (text : List Char) : (pieces cut n text).length ≤ n + 1 := by
  induction n generalizing text with
  | zero => simp [pieces]
  | succ n ih =>
    rw [pieces]
    split
    · simp
    · next after _ => simpa using ih after

/-- Joining the pieces with the separator gives the text back. -/
theorem intercalate_pieces_cutAt (d : List Char) (n : Nat) (text : List Char) :
    d.intercalate (pieces (cutAt d) n text) = text := by
  induction n generalizing text with
  | zero => simp [pieces]
  | succ n ih =>
    rw [pieces]
    split
    · simp
    · next before after hcut =>
      obtain ⟨first, others, hfo⟩ := List.exists_cons_of_ne_nil (pieces_ne_nil (cutAt d) n after)
      have hafter := ih after
      rw [hfo] at hafter ⊢
      rw [List.intercalate_cons_cons, hafter]
      simpa using append_of_cutAt hcut

/-! ## Words -/

/-- The maximal runs of characters other than white space, in order. -/
def words : List Char → List (List Char)
  | [] => []
  | c :: rest =>
    if isBlank c then words rest
    else
      match rest with
      | [] => [[c]]
      | next :: _ => if isBlank next then [c] :: words rest else (words rest).modifyHead (c :: ·)

end FieldBinding.Text
