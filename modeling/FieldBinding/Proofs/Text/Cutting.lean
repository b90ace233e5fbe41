import Mathlib.Data.List.Infix
import FieldBinding.Text.Cut

/-!
# Where a text is cut

A text is cut at the first occurrence of a separator.  What stands in front of the cut is *clear* of the separator: not
even together with the separator behind it does it show an occurrence that begins in it.  That is more than not to
contain the separator, which may also begin at the end of a text and end in the separator behind it, as `--` does in
`a-` in front of `--`.

Joining and cutting are inverse to each other up to that: texts that are clear of the separator are the pieces of what
they are joined to, and with enough cuts no piece contains the separator.

Main results:

* `Text.cutAt_eq_some_iff` — the text in front of a cut is clear of the separator, and this tells where the cut is.
* `Text.pieces_intercalate` — clear texts are the pieces of their join.
* `Text.not_infix_of_mem_pieces` — with enough cuts the separator is in no piece.
-/

namespace FieldBinding.Text

variable {d text before after : List Char}

/-! ## Clear texts -/

/-- In a text with the separator behind it, the first occurrence of the separator is the one behind the text. -/
def Clear (d text : List Char) : Prop :=
  ∀ k < text.length, ¬d <+: (text ++ d).drop k

instance (d text : List Char) : Decidable (Clear d text) :=
  inferInstanceAs (Decidable (∀ k < text.length, ¬d <+: (text ++ d).drop k))

theorem clear_nil (d : List Char) : Clear d [] := fun _ lt => absurd lt (Nat.not_lt_zero _)

theorem clear_cons {c : Char} {rest : List Char} : Clear d (c :: rest) ↔ ¬d <+: c :: rest ++ d ∧ Clear d rest :=
  Nat.forall_lt_succ_left

/-- A text that is clear of a separator does not contain it. -/
theorem Clear.avoids (separator : d ≠ []) (clear : Clear d text) : ¬d <:+: text := by
  induction text with
  | nil => exact fun occurs => separator (List.eq_nil_of_infix_nil occurs)
  | cons c rest ih =>
    obtain ⟨here, later⟩ := clear_cons.1 clear
    rw [List.infix_cons_iff, not_or]
    exact ⟨fun front => here (front.trans (List.prefix_append _ _)), ih later⟩

/-- Whether the separator stands in front depends on nothing behind its next occurrence. -/
theorem prefix_append_separator : d <+: text ++ (d ++ after) ↔ d <+: text ++ d := by
  rw [← List.append_assoc]
  constructor
  · intro front
    exact List.prefix_of_prefix_length_le front (List.prefix_append _ _) (by simp)
  · exact fun front => front.trans (List.prefix_append _ _)

/-! ## One cut -/

theorem cutAt_eq_none_iff (separator : d ≠ []) : cutAt d text = none ↔ ¬d <:+: text := by
  induction text with
  | nil => simp [cutAt, separator]
  | cons c rest ih =>
    rw [cutAt, List.infix_cons_iff, ← List.isPrefixOf_iff_prefix]
    split
    · next front => simp [front]
    · next front => simp [front, ih]

/-- A text is cut behind a part that is clear of the separator. -/
theorem cutAt_append (separator : d ≠ []) (clear : Clear d before) (after : List Char) :
    cutAt d (before ++ (d ++ after)) = some (before, after) := by
  induction before with
  | nil =>
    obtain ⟨c, rest, rfl⟩ := List.exists_cons_of_ne_nil separator
    have front : (c :: rest).isPrefixOf (c :: (rest ++ after)) := List.isPrefixOf_iff_prefix.2 (List.prefix_append _ _)
    rw [List.nil_append, List.cons_append, cutAt, if_pos front]
    simp
  | cons c rest ih =>
    obtain ⟨here, later⟩ := clear_cons.1 clear
    have front : ¬d.isPrefixOf (c :: (rest ++ (d ++ after))) := by
      rw [List.isPrefixOf_iff_prefix]
      exact fun front => here (prefix_append_separator.1 front)
    rw [List.cons_append, cutAt, if_neg front, ih later]
    rfl

/-- What stands in front of a cut is clear of the separator. -/
theorem clear_of_cutAt (cut : cutAt d text = some (before, after)) : Clear d before := by
  induction text generalizing before with
  | nil => cases cut
  | cons c rest ih =>
    have whole := append_of_cutAt cut
    rw [cutAt] at cut
    split at cut
    · cases cut
      exact clear_nil d
    · next front =>
      obtain ⟨⟨before', after'⟩, later, parts⟩ := Option.map_eq_some_iff.1 cut
      cases parts
      refine clear_cons.2 ⟨fun occurs => front ?_, ih later⟩
      rw [List.isPrefixOf_iff_prefix, ← whole]
      exact prefix_append_separator.2 occurs

/-- The text in front of a cut is clear of the separator, and this tells where the cut is. -/
theorem cutAt_eq_some_iff (separator : d ≠ []) :
    cutAt d text = some (before, after) ↔ text = before ++ (d ++ after) ∧ Clear d before := by
  constructor
  · exact fun cut => ⟨(append_of_cutAt cut).symm, clear_of_cutAt cut⟩
  · rintro ⟨rfl, clear⟩
    exact cutAt_append separator clear after

/-! ## Several cuts -/

/-- Clear texts are the pieces of what they are joined to. -/
theorem pieces_intercalate (separator : d ≠ []) {items : List (List Char)} (some : items ≠ [])
    (clear : ∀ x ∈ items, Clear d x) {n : Nat} (enough : (d.intercalate items).length ≤ n) :
    pieces (cutAt d) n (d.intercalate items) = items := by
  induction items generalizing n with
  | nil => exact absurd rfl some
  | cons x rest ih =>
    cases rest with
    | nil =>
      -- the last item has no separator behind it, but being clear it does not contain one either
      rw [List.intercalate_singleton]
      have none : cutAt d x = none := (cutAt_eq_none_iff separator).2 ((clear x List.mem_cons_self).avoids separator)
      cases n with
      | zero => rfl
      | succ n => rw [pieces, none]
    | cons y rest =>
      rw [List.intercalate_cons_cons, List.append_assoc] at enough ⊢
      -- a cut takes a separator away, so the cuts that are left are enough for the rest
      have shorter : (d.intercalate (y :: rest)).length < n := by
        have := List.length_pos_iff.2 separator
        simp only [List.length_append] at enough
        omega
      obtain ⟨m, rfl⟩ : ∃ m, n = m + 1 := ⟨n - 1, by omega⟩
      rw [pieces, (cutAt_eq_some_iff separator).2 ⟨rfl, clear x List.mem_cons_self⟩]
      exact congrArg (x :: ·) (ih (List.cons_ne_nil _ _) (fun x mem => clear x (List.mem_cons_of_mem _ mem)) (by omega))

/-- With enough cuts the separator is in no piece. -/
theorem not_infix_of_mem_pieces (separator : d ≠ []) {n : Nat} (enough : text.length ≤ n) :
    ∀ x ∈ pieces (cutAt d) n text, ¬d <:+: x := by
  induction n generalizing text with
  | zero =>
    obtain rfl : text = [] := List.length_eq_zero_iff.1 (by omega)
    simpa [pieces] using separator
  | succ n ih =>
    rw [pieces]
    cases cut : cutAt d text with
    | none => simpa using (cutAt_eq_none_iff separator).1 cut
    | some parts =>
      obtain ⟨before, after⟩ := parts
      obtain ⟨rfl, clear⟩ := (cutAt_eq_some_iff separator).1 cut
      have shorter : after.length ≤ n := by
        have := List.length_pos_iff.2 separator
        simp only [List.length_append] at enough
        omega
      exact List.forall_mem_cons.2 ⟨clear.avoids separator, ih shorter⟩

end FieldBinding.Text
