import Mathlib.Data.List.Basic
import Mathlib.Data.List.TakeWhile
import FieldBinding.Text.Cut

/-!
# The words of a text

A *run* is a piece of a text without white space that is not part of a longer one: on either side of it the text ends
or has white space.  The words of a text are its runs, and cutting a text at white space finds them one after another.

A text is white space only, or it is a run with white space in front of it and a rest behind it.  `Text.runs` takes a
text apart in this way, and what is shown of it goes by the same induction (`Text.runInduction`).

Main results:

* `Text.mem_runs_iff`, `Text.pairwise_runs` — the runs that are found are all runs of the text, in order.
* `Text.words_eq` — the words of a text are its runs.
* `Text.exists_pieces_cutBlank` — what comes of cutting a text at white space so many times at most.
-/

namespace FieldBinding.Text

/-! ## Runs -/

/-- A word in a text, with what stands before and behind it. -/
@[ext] structure Run where
  before : List Char
  word : List Char
  after : List Char
  deriving DecidableEq, Repr

namespace Run

/-- Whether the word stands at its place in a text as a maximal run of characters other than white space. -/
structure IsIn (r : Run) (text : List Char) : Prop where
  whole : r.before ++ (r.word ++ r.after) = text
  nonempty : r.word ≠ []
  solid : ∀ c ∈ r.word, isBlank c = false
  before_blank : ∀ c ∈ r.before.getLast?, isBlank c = true
  after_blank : ∀ c ∈ r.after.head?, isBlank c = true

/-- The text from the word on. -/
def suffix (r : Run) : List Char :=
  r.word ++ r.after

/-- The same word with more text in front. -/
def behind (front : List Char) (r : Run) : Run :=
  { r with before := front ++ r.before }

end Run

/-- The runs of a text, in order. -/
def runs (text : List Char) : List Run :=
  match _h : trimStart text with
  | [] => []
  | c :: tail =>
    let gap := text.takeWhile isBlank
    let word := c :: tail.takeWhile (!isBlank ·)
    let rest := tail.dropWhile (!isBlank ·)
    ⟨gap, word, rest⟩ :: (runs rest).map (·.behind (gap ++ word))
termination_by text.length
decreasing_by
  have shorter := (List.dropWhile_suffix (!isBlank ·) (l := tail)).length_le
  have trimmed := (List.dropWhile_suffix isBlank (l := text)).length_le
  rw [trimStart] at _h
  rw [_h, List.length_cons] at trimmed
  omega

variable {gap word rest text : List Char}

/-! ## Taking a text apart -/

theorem trimStart_of_blank (blank : ∀ c ∈ text, isBlank c = true) : trimStart text = [] :=
  List.dropWhile_eq_nil_iff.2 blank

/-- Behind the white space in front a text begins with its first run. -/
theorem trimStart_run (blank : ∀ c ∈ gap, isBlank c = true) (run : Run.IsIn ⟨gap, word, rest⟩ text) :
    trimStart text = word ++ rest := by
  obtain ⟨rfl, nonempty, solid, -, -⟩ := run
  obtain ⟨c, tail, rfl⟩ := List.exists_cons_of_ne_nil nonempty
  have first : isBlank c = false := solid c List.mem_cons_self
  simp [trimStart, List.dropWhile_append_of_pos blank, first]

theorem takeWhile_run (solid : ∀ c ∈ word, isBlank c = false) (after : ∀ c ∈ rest.head?, isBlank c = true) :
    (word ++ rest).takeWhile (!isBlank ·) = word ∧ (word ++ rest).dropWhile (!isBlank ·) = rest := by
  have solid' : ∀ c ∈ word, (!isBlank c) = true := fun c mem => by simp [solid c mem]
  rw [List.takeWhile_append_of_pos solid', List.dropWhile_append_of_pos solid']
  cases rest with
  | nil => simp
  | cons d rest =>
    have blank : isBlank d = true := after d rfl
    simp [blank]

theorem runs_of_blank (blank : ∀ c ∈ text, isBlank c = true) : runs text = [] := by
  rw [runs]
  split
  · rfl
  · next text' => simp [trimStart_of_blank blank] at text'

/-- The first run of a text is found first, and the others behind it. -/
theorem runs_of_run (blank : ∀ c ∈ gap, isBlank c = true) (run : Run.IsIn ⟨gap, word, rest⟩ text) :
    runs text = ⟨gap, word, rest⟩ :: (runs rest).map (·.behind (gap ++ word)) := by
  have trimmed := trimStart_run blank run
  obtain ⟨rfl, nonempty, solid, -, after⟩ := run
  obtain ⟨c, tail, rfl⟩ := List.exists_cons_of_ne_nil nonempty
  have first : isBlank c = false := solid c List.mem_cons_self
  have front : (gap ++ (c :: tail ++ rest)).takeWhile isBlank = gap := by
    simp [List.takeWhile_append_of_pos blank, first]
  obtain ⟨taken, dropped⟩ := takeWhile_run (fun d mem => solid d (List.mem_cons_of_mem _ mem)) after
  rw [runs]
  split
  · next none => cases trimmed.symm.trans none
  · next d tail' some =>
    obtain ⟨rfl, rfl⟩ := List.cons.inj (trimmed.symm.trans some)
    simp only [front, List.append_eq, taken, dropped]

/-- What is true of white space, and of a text with a run in front if it is true of what stands behind the run, is true
of every text. -/
theorem runInduction {motive : List Char → Prop}
    (blank : ∀ text, (∀ c ∈ text, isBlank c = true) → motive text)
    (run : ∀ gap word rest text, (∀ c ∈ gap, isBlank c = true) → Run.IsIn ⟨gap, word, rest⟩ text →
      motive rest → motive text)
    (text : List Char) : motive text := by
  induction length : text.length using Nat.strongRecOn generalizing text with
  | _ n ih =>
    subst length
    have gap : ∀ c ∈ text.takeWhile isBlank, isBlank c = true := fun c mem => List.mem_takeWhile_imp mem
    have split := takeWhile_append_trimStart text
    cases tail : trimStart text with
    | nil =>
      refine blank text ?_
      rw [tail, List.append_nil] at split
      rwa [split] at gap
    | cons c others =>
      have first := isBlank_head_trimStart tail
      have word := List.takeWhile_append_dropWhile (p := (!isBlank ·)) (l := others)
      have shorter : (others.dropWhile (!isBlank ·)).length < text.length := by
        have := congrArg List.length split
        have := congrArg List.length word
        simp only [List.length_append, tail, List.length_cons] at *
        omega
      refine run (text.takeWhile isBlank) (c :: others.takeWhile (!isBlank ·)) _ text gap
        ⟨?_, List.cons_ne_nil _ _, ?_, fun c mem => gap c (List.mem_of_mem_getLast? mem), ?_⟩ (ih _ shorter _ rfl)
      · rw [List.cons_append, word, ← tail, split]
      · exact List.forall_mem_cons.2 ⟨first, fun d mem => by simpa using List.mem_takeWhile_imp mem⟩
      · have next := List.head?_dropWhile_not (!isBlank ·) others
        intro d mem
        rw [Option.mem_def.1 mem] at next
        simpa using next

/-! ## All runs, in order -/

/-- Only the last character of what stands in front of a word decides whether a run can begin there. -/
theorem mem_getLast?_append {front before : List Char} (apart : before ≠ []) {c : Char} :
    c ∈ (front ++ before).getLast? ↔ c ∈ before.getLast? := by
  rw [List.getLast?_append, List.getLast?_eq_some_getLast apart, Option.some_or]

/-- A run that does not begin where its text does is a run with any text in front of its text. -/
theorem Run.IsIn.behind {r : Run} (isIn : r.IsIn rest) (apart : r.before ≠ []) (front : List Char) :
    (r.behind front).IsIn (front ++ rest) := by
  obtain ⟨whole, nonempty, solid, before, after⟩ := isIn
  refine ⟨by simp [Run.behind, ← whole], nonempty, solid, fun c last => before c ?_, after⟩
  exact (mem_getLast?_append apart).1 last

/-- Where a run begins in a text that begins with one, it is that run. -/
theorem Run.IsIn.unique {r r' : Run} (isIn : r.IsIn text) (isIn' : r'.IsIn text) (begin : r.before = r'.before) :
    r = r' := by
  have suffix : r.word ++ r.after = r'.word ++ r'.after :=
    List.append_cancel_left ((isIn.whole.trans isIn'.whole.symm).trans (by rw [begin]))
  obtain ⟨taken, dropped⟩ := takeWhile_run isIn.solid isIn.after_blank
  obtain ⟨taken', dropped'⟩ := takeWhile_run isIn'.solid isIn'.after_blank
  rw [suffix] at taken dropped
  exact Run.ext begin (taken.symm.trans taken') (dropped.symm.trans dropped')

/-- A run that begins elsewhere than the first one stands behind it. -/
theorem exists_behind {r : Run} (blank : ∀ c ∈ gap, isBlank c = true) (run : Run.IsIn ⟨gap, word, rest⟩ text)
    (isIn : r.IsIn text) (other : r.before ≠ gap) : ∃ r' : Run, r'.IsIn rest ∧ r'.behind (gap ++ word) = r := by
  obtain ⟨c, tail, head⟩ := List.exists_cons_of_ne_nil isIn.nonempty
  have first : isBlank c = false := isIn.solid c (by simp [head])
  have whole := isIn.whole.trans run.whole.symm
  simp only [head] at whole
  rcases List.append_eq_append_iff.1 whole with ⟨early, gapEq, wordEq⟩ | ⟨late, beforeEq, restEq⟩
  · -- the run would begin in the white space in front
    cases early with
    | nil => exact absurd (gapEq.trans (List.append_nil _)).symm other
    | cons d early =>
      obtain ⟨rfl, -⟩ := List.cons.inj wordEq
      rw [blank c (by simp [gapEq])] at first
      cases first
  have nonempty : late ≠ [] := by
    rintro rfl
    exact other (beforeEq.trans (List.append_nil _))
  have last : isBlank (late.getLast nonempty) = true := by
    refine isIn.before_blank _ ?_
    rw [beforeEq, mem_getLast?_append nonempty, List.getLast?_eq_some_getLast nonempty, Option.mem_some]
  have apart : late.getLast nonempty ∉ word := fun mem => by
    rw [run.solid _ mem] at last
    cases last
  rcases List.append_eq_append_iff.1 restEq with ⟨further, lateEq, restEq⟩ | ⟨inside, wordEq, -⟩
  · -- the run begins behind the first one
    refine ⟨⟨further, r.word, r.after⟩, ⟨?_, isIn.nonempty, isIn.solid, ?_, isIn.after_blank⟩, ?_⟩
    · rw [restEq, head]
    · intro d mem
      obtain ⟨some, -⟩ := List.mem_getLast?_eq_getLast mem
      refine isIn.before_blank d ?_
      rwa [beforeEq, lateEq, mem_getLast?_append (List.append_ne_nil_of_right_ne_nil _ some),
        mem_getLast?_append some]
    · exact Run.ext (by simp [Run.behind, beforeEq, lateEq]) rfl rfl
  · -- the run would begin in the first one
    exact absurd (by rw [wordEq]; exact List.mem_append_left _ (List.getLast_mem nonempty)) apart

/-- The run in front of a text and the runs of what stands behind it are all runs of the text. -/
theorem isIn_iff {r : Run} (blank : ∀ c ∈ gap, isBlank c = true) (run : Run.IsIn ⟨gap, word, rest⟩ text) :
    r.IsIn text ↔ r = ⟨gap, word, rest⟩ ∨ ∃ r' : Run, r'.IsIn rest ∧ r'.behind (gap ++ word) = r := by
  constructor
  · intro isIn
    by_cases here : r.before = gap
    · exact .inl (isIn.unique run here)
    · exact .inr (exists_behind blank run isIn here)
  · rintro (rfl | ⟨r', isIn, rfl⟩)
    · exact run
    · have apart : r'.before ≠ [] := by
        intro none
        obtain ⟨c, tail, head⟩ := List.exists_cons_of_ne_nil isIn.nonempty
        have blank : isBlank c = true := run.after_blank c (by simp [← isIn.whole, none, head])
        rw [isIn.solid c (by simp [head])] at blank
        cases blank
      have moved := isIn.behind apart (gap ++ word)
      rwa [List.append_assoc, run.whole] at moved

theorem mem_runs_iff {r : Run} : r ∈ runs text ↔ r.IsIn text := by
  induction text using runInduction generalizing r with
  | blank text blank =>
    rw [runs_of_blank blank]
    refine iff_of_false List.not_mem_nil fun isIn => ?_
    obtain ⟨c, tail, word⟩ := List.exists_cons_of_ne_nil isIn.nonempty
    have solid := isIn.solid c (by simp [word])
    rw [blank c (by simp [← isIn.whole, word])] at solid
    cases solid
  | run gap word rest text blank run ih =>
    rw [runs_of_run blank run, List.mem_cons, List.mem_map, isIn_iff blank run]
    simp only [ih]

theorem pairwise_runs (text : List Char) : (runs text).Pairwise (·.before.length < ·.before.length) := by
  induction text using runInduction with
  | blank text blank =>
    rw [runs_of_blank blank]
    exact .nil
  | run gap word rest text blank run ih =>
    rw [runs_of_run blank run]
    have positive := List.length_pos_iff.2 run.nonempty
    refine .cons (fun r mem => ?_) (ih.map _ fun r r' lt => by simpa [Run.behind] using lt)
    obtain ⟨r', -, rfl⟩ := List.mem_map.1 mem
    simp only [Run.behind, List.length_append]
    simp only at positive
    omega

theorem word_behind (front : List Char) : (Run.word ∘ Run.behind front) = Run.word := rfl

/-! ## Words -/

theorem words_append_of_blank (blank : ∀ c ∈ gap, isBlank c = true) (text : List Char) :
    words (gap ++ text) = words text := by
  induction gap with
  | nil => rfl
  | cons c gap ih =>
    have first : words (c :: (gap ++ text)) = words (gap ++ text) := by
      rw [words.eq_def]
      simp only [blank c List.mem_cons_self, if_true]
    rw [List.cons_append, first, ih fun d mem => blank d (List.mem_cons_of_mem _ mem)]

/-- A run in front of a text is its first word. -/
theorem words_append_of_solid (nonempty : word ≠ []) (solid : ∀ c ∈ word, isBlank c = false)
    (after : ∀ c ∈ rest.head?, isBlank c = true) : words (word ++ rest) = word :: words rest := by
  induction word with
  | nil => exact absurd rfl nonempty
  | cons c word ih =>
    have first : isBlank c = false := solid c List.mem_cons_self
    cases word with
    | nil =>
      cases rest with
      | nil => simp [words, first]
      | cons d rest => simp [words, first, show isBlank d = true from after d rfl]
    | cons d word =>
      have second : isBlank d = false := solid d (by simp)
      have others := ih (List.cons_ne_nil _ _) fun e mem => solid e (List.mem_cons_of_mem _ mem)
      rw [List.cons_append, List.cons_append, words, if_neg (by simp [first])]
      simp only [second, Bool.false_eq_true, if_false]
      rw [← List.cons_append, others, List.modifyHead_cons]

/-- The words of a text are its runs. -/
theorem words_eq (text : List Char) : words text = (runs text).map (·.word) := by
  induction text using runInduction with
  | blank text blank =>
    have none := words_append_of_blank blank []
    rw [List.append_nil] at none
    rw [runs_of_blank blank, none, words, List.map_nil]
  | run gap word rest text blank run ih =>
    rw [runs_of_run blank run, List.map_cons, List.map_map, word_behind, ← ih, ← run.whole,
      words_append_of_blank blank]
    exact words_append_of_solid run.nonempty run.solid run.after_blank

/-! ## Cutting at white space -/

/-- A text with a run in front is cut behind the run, if anything follows. -/
theorem cutBlank_run (solid : ∀ c ∈ word, isBlank c = false) (after : ∀ c ∈ rest.head?, isBlank c = true) :
    cutBlank (word ++ rest) = if rest = [] then none else some (word, trimStart rest) := by
  obtain ⟨taken, dropped⟩ := takeWhile_run solid after
  rw [cutBlank, dropped, taken]
  cases rest <;> rfl

/-- What is left of the runs of a text after so many cuts at most: the words in front of the cuts, and the text from the
next run on. -/
def cutRuns : Nat → List Run → List (List Char)
  | _, [] => []
  | 0, r :: _ => [r.suffix]
  | n + 1, r :: rest => r.word :: cutRuns n rest

theorem cutRuns_of_length_le {n : Nat} {runs : List Run} (enough : runs.length ≤ n) :
    cutRuns n runs = runs.map (·.word) := by
  induction runs generalizing n with
  | nil => cases n <;> rfl
  | cons r rest ih =>
    cases n with
    | zero => simp at enough
    | succ n => rw [cutRuns, List.map_cons, ih (by simpa using enough)]

theorem cutRuns_of_getElem? {n : Nat} {runs : List Run} {r : Run} (next : runs[n]? = some r) :
    cutRuns n runs = (runs.take n).map (·.word) ++ [r.suffix] := by
  induction runs generalizing n with
  | nil => simp at next
  | cons r' rest ih =>
    cases n with
    | zero =>
      cases next
      rfl
    | succ n => rw [cutRuns, ih (by simpa using next), List.take_succ_cons, List.map_cons, List.cons_append]

theorem cutRuns_behind (n : Nat) (front : List Char) (runs : List Run) :
    cutRuns n (runs.map (·.behind front)) = cutRuns n runs := by
  induction runs generalizing n with
  | nil => cases n <;> rfl
  | cons r rest ih =>
    cases n with
    | zero => rfl
    | succ n =>
      rw [List.map_cons, cutRuns, ih]
      rfl

/-- Cutting a text at white space leaves its runs, and an empty piece where white space stands behind the last of
them. -/
theorem exists_pieces_cutBlank (n : Nat) (text : List Char) :
    ∃ k, pieces cutBlank n (trimStart text) = cutRuns n (runs text) ++ List.replicate k [] := by
  induction text using runInduction generalizing n with
  | blank text blank =>
    refine ⟨1, ?_⟩
    rw [trimStart_of_blank blank, runs_of_blank blank]
    cases n <;> rfl
  | run gap word rest text blank run ih =>
    rw [trimStart_run blank run, runs_of_run blank run]
    cases n with
    | zero => exact ⟨0, rfl⟩
    | succ n =>
      rw [pieces, cutBlank_run run.solid run.after_blank, cutRuns, cutRuns_behind]
      by_cases none : rest = []
      · subst none
        exact ⟨0, by rw [if_pos rfl, runs_of_blank (by simp)]; cases n <;> simp [cutRuns]⟩
      · obtain ⟨k, others⟩ := ih n
        rw [if_neg none]
        exact ⟨k, congrArg (word :: ·) others⟩

end FieldBinding.Text
