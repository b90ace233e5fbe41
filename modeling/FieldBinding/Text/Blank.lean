/-!
# White space

The characters with the Unicode property White_Space, twenty-five of them, and the trimming of texts by
that property.  `Text.isBlank` decides membership in `Text.blankRanges`; `Text.trimStart`, `Text.trimEnd`
and `Text.trim` work on lists of characters, and `Text.trimmed` is the same cut on strings.

The two lemmas on `trimStart` say what a trimmed text looks like at its front: nothing but white space is
removed (`takeWhile_append_trimStart`), and what is left does not begin with any (`isBlank_head_trimStart`).
A text without white space stays as it is (`trimmed_of_not_blank`).
-/

namespace FieldBinding.Text

/-- The ranges of code points with the property White_Space, ascending and apart. -/
def blankRanges : List (Nat × Nat) :=
  [(0x09, 0x0D), (0x20, 0x20), (0x85, 0x85), (0xA0, 0xA0), (0x1680, 0x1680), (0x2000, 0x200A),
    (0x2028, 0x2029), (0x202F, 0x202F), (0x205F, 0x205F), (0x3000, 0x3000)]

/-- Whether the character is white space. -/
def isBlank (c : Char) : Bool :=
  blankRanges.any fun range => range.1 ≤ c.toNat && c.toNat ≤ range.2

/-- Digits are no white space. -/
theorem isBlank_of_isDigit {c : Char} (digit : c.isDigit = true) : isBlank c = false := by
  have bounds : 48 ≤ c.toNat ∧ c.toNat ≤ 57 := by
    simpa [Char.isDigit, UInt32.le_iff_toNat_le] using digit
  simp only [isBlank, blankRanges, List.any_cons, List.any_nil, Bool.or_false, Bool.or_eq_false_iff,
    Bool.and_eq_false_iff, decide_eq_false_iff_not]
  omega

/-! ## Trimming -/

/-- The text without the white space in front. -/
def trimStart (text : List Char) : List Char :=
  text.dropWhile isBlank

/-- The text without the white space at its end. -/
def trimEnd (text : List Char) : List Char :=
  (text.reverse.dropWhile isBlank).reverse

/-- The text without the white space at either end. -/
def trim (text : List Char) : List Char :=
  trimEnd (trimStart text)

/-- The string without the white space at either end. -/
def trimmed (s : String) : String :=
  String.ofList (trim s.toList)

theorem takeWhile_append_trimStart (text : List Char) :
    text.takeWhile isBlank ++ trimStart text = text := by
  simp [trimStart]

theorem isBlank_head_trimStart {text rest : List Char} {c : Char}
    (h : trimStart text = c :: rest) : isBlank c = false := by
  have := List.head?_dropWhile_not isBlank text
  simp only [trimStart] at h
  simpa [h] using this

/-- A text without white space has none at its ends. -/
theorem trimmed_of_not_blank {text : String} (h : ∀ c ∈ text.toList, isBlank c = false) : trimmed text = text := by
  have kept : ∀ {cs : List Char}, (∀ c ∈ cs, isBlank c = false) → cs.dropWhile isBlank = cs := by
    intro cs hcs
    cases cs with
    | nil => rfl
    | cons c rest => rw [List.dropWhile_cons_of_neg (by simp [hcs c List.mem_cons_self])]
  have reversed : ∀ c ∈ text.toList.reverse, isBlank c = false := fun c hc => h c (List.mem_reverse.1 hc)
  rw [trimmed, trim, trimStart, kept h, trimEnd, kept reversed, List.reverse_reverse, String.ofList_toList]

end FieldBinding.Text
