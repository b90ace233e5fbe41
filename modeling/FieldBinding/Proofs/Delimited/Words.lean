import Mathlib
import FieldBinding.Proofs.Delimited.RoundTrip
import FieldBinding.Proofs.Text.Words

/-!
# Separating at white space

A text that is separated at white space falls into its words, and nothing of the white space around them is left.  A
limit stops the cutting: the last item is then the text from its first word to its very end, white space included.

Main results:

* `separate_multiSpace` — the items of a text are what is left of its runs.
* `separate_words` — they are its words, or the first of them and the text from the next one on.
-/

namespace FieldBinding

theorem dropEmptyEnd_append_replicate {items : List (List Char)} (nonempty : ∀ x ∈ items, x ≠ []) (k : Nat) :
    dropEmptyEnd (items ++ List.replicate k []) = items := by
  have empty : ∀ x ∈ List.replicate k ([] : List Char), x.isEmpty = true := fun x mem => by
    rw [List.eq_of_mem_replicate mem]
    rfl
  rw [dropEmptyEnd, List.reverse_append, List.reverse_replicate, List.dropWhile_append_of_pos empty]
  cases last : items.reverse with
  | nil => simpa using last.symm
  | cons x rest =>
    have full : x.isEmpty = false := by
      have := nonempty x (List.mem_reverse.1 (by simp [last]))
      simpa using this
    rw [List.dropWhile_cons, full, ← last]
    exact List.reverse_reverse items

namespace Text

variable {text : List Char}

theorem length_runs_le (text : List Char) : (runs text).length ≤ text.length := by
  induction text using runInduction with
  | blank text blank => simp [runs_of_blank blank]
  | run gap word rest text blank run ih =>
    have positive := List.length_pos_iff.2 run.nonempty
    have whole := congrArg List.length run.whole
    simp only [List.length_append] at positive whole
    rw [runs_of_run blank run, List.length_cons, List.length_map]
    omega

/-- No cut leaves an empty piece of a run. -/
theorem nonempty_of_mem_cutRuns {n : Nat} {runs : List Run} (nonempty : ∀ r ∈ runs, r.word ≠ []) :
    ∀ x ∈ cutRuns n runs, x ≠ [] := by
  induction runs generalizing n with
  | nil => cases n <;> simp [cutRuns]
  | cons r rest ih =>
    have first := nonempty r List.mem_cons_self
    cases n with
    | zero => simpa [cutRuns, Run.suffix] using fun none => absurd none first
    | succ n => exact List.forall_mem_cons.2 ⟨first, ih fun r mem => nonempty r (List.mem_cons_of_mem _ mem)⟩

end Text

/-- The items of a text that is separated at white space are what its cuts leave of its runs. -/
theorem separate_multiSpace {options : SeparateOptions} (pattern : options.delimiter = .multiSpace) (s : String) :
    separate options s =
      (Text.cutRuns (cutLimit options.limit s.toList) (Text.runs s.toList)).map String.ofList := by
  by_cases empty : s = ""
  · subst empty
    rw [Text.runs_of_blank (by simp)]
    cases cutLimit options.limit "".toList <;> rfl
  · obtain ⟨k, pieces⟩ := Text.exists_pieces_cutBlank (cutLimit options.limit s.toList) s.toList
    have nonempty : ∀ r ∈ Text.runs s.toList, r.word ≠ [] := fun r mem => (Text.mem_runs_iff.1 mem).nonempty
    rw [separate, if_neg (by simpa using empty), separateChars, pattern]
    simp only [Delimiter.isPattern, if_true]
    rw [pieces, dropEmptyEnd_append_replicate (Text.nonempty_of_mem_cutRuns nonempty)]

/-- A text that is separated at white space.  Its runs are listed in order, none is missing, and their words are the
words of the text.  Without a limit the items are the words.  With a limit they are the words if there are fewer, and
otherwise one word less than the limit and the text from the next word on. -/
theorem separate_words (s : String) :
    let runs := Text.runs s.toList
    let words := (Text.words s.toList).map String.ofList
    (∀ r, r ∈ runs ↔ r.IsIn s.toList) ∧ runs.Pairwise (·.before.length < ·.before.length) ∧
      words = runs.map (fun r => String.ofList r.word) ∧ (∀ w ∈ words, w ≠ "") ∧
      (∀ options : SeparateOptions, options.delimiter = .multiSpace → options.Unlimited →
        separate options s = words) ∧
      ∀ n, let options : SeparateOptions := { delimiter := .multiSpace, limit := some (n + 1) }
        (words.length < n + 1 → separate options s = words) ∧
          ∀ r, runs[n]? = some r →
            separate options s = words.take n ++ [String.ofList (s.toList.drop r.before.length)] := by
  intro runs words
  have words_eq : words = runs.map fun r => String.ofList r.word := by
    simp only [words, Text.words_eq, List.map_map]
    rfl
  have length : words.length = runs.length := by rw [words_eq, List.length_map]
  have all : ∀ {n}, runs.length ≤ n → (Text.cutRuns n runs).map String.ofList = words := fun enough => by
    rw [Text.cutRuns_of_length_le enough, List.map_map, words_eq]
    rfl
  refine ⟨fun r => Text.mem_runs_iff, Text.pairwise_runs _, words_eq, ?_, fun options pattern unlimited => ?_,
    fun n => ⟨fun few => ?_, fun r next => ?_⟩⟩
  · rw [words_eq, List.forall_mem_map]
    intro r mem
    simpa using (Text.mem_runs_iff.1 mem).nonempty
  · rw [separate_multiSpace pattern, cutLimit_of_unlimited unlimited]
    exact all (Nat.le_succ_of_le (Text.length_runs_le _))
  · rw [separate_multiSpace rfl, cutLimit]
    exact all (by omega)
  · have whole := (Text.mem_runs_iff.1 (List.mem_of_getElem? next)).whole
    have suffix : s.toList.drop r.before.length = r.suffix := by
      rw [← whole, List.drop_left]
      rfl
    rw [separate_multiSpace rfl, cutLimit, Text.cutRuns_of_getElem? next, words_eq, suffix, List.map_append,
      ← List.map_take, List.map_map]
    rfl

/-- Three words with white space of several kinds around them, cut once. -/
theorem separate_words_cut_once :
    let s := "\ta  bc \n d "
    let options : SeparateOptions := { limit := some 2 }
    (Text.runs s.toList)[1]? = some ⟨"\ta  ".toList, "bc".toList, " \n d ".toList⟩ ∧
      separate options s = ["a", "bc \n d "] ∧ separate {} s = ["a", "bc", "d"] := by
  intro s options
  have next : (Text.runs s.toList)[1]? = some ⟨"\ta  ".toList, "bc".toList, " \n d ".toList⟩ := by cbv
  have words : (Text.words s.toList).map String.ofList = ["a", "bc", "d"] := by cbv
  obtain ⟨-, -, -, -, unlimited, limited⟩ := separate_words s
  refine ⟨next, ?_, ?_⟩
  · rw [(limited 1).2 _ next, words]
    cbv
  · rw [unlimited {} rfl (.inl rfl), words]

end FieldBinding
