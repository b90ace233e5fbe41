import Mathlib.Data.List.DropRight
import FieldBinding.Delimited.Combine
import FieldBinding.Delimited.Separate
import FieldBinding.Proofs.Text.Cutting

/-!
# Combining and separating

Combining joins items with the text of a delimiter, and separating cuts a text at it, so each undoes the other as far as
it can.  Two things stand in the way.  Separating drops empty items at the end, so the delimiters there are lost; and an
item may show the delimiter, or the beginning of one that the delimiter behind it completes, and then it is cut in the
wrong place.

Main results:

* `dropEmptyEnd_append` — what is dropped from a list of items is nothing but empty items.
* `separate_combine` — the items of combined items, if the items are clear of the delimiter.
* `combine_separate` — a text is what its items combine to, up to delimiters at the end.
-/

namespace FieldBinding

/-! ## Empty items at the end -/

/-- The items that are kept do not end with an empty one. -/
theorem getLast?_dropEmptyEnd (items : List (List Char)) : (dropEmptyEnd items).getLast? ≠ some [] := by
  intro last
  obtain ⟨some, eq⟩ := List.mem_getLast?_eq_getLast last
  exact List.rdropWhile_last_not List.isEmpty items some (List.isEmpty_iff.2 eq.symm)

/-- Items are dropped from the end only. -/
theorem prefix_dropEmptyEnd (items : List (List Char)) : dropEmptyEnd items <+: items :=
  List.rdropWhile_prefix List.isEmpty items

/-- What is dropped from a list of items is nothing but empty items. -/
theorem dropEmptyEnd_append (items : List (List Char)) : ∃ k, dropEmptyEnd items ++ List.replicate k [] = items := by
  have empty : ∀ x ∈ items.rtakeWhile List.isEmpty, x = [] := fun x mem =>
    List.isEmpty_iff.1 (List.mem_rtakeWhile_imp mem)
  refine ⟨(items.rtakeWhile List.isEmpty).length, ?_⟩
  rw [← List.eq_replicate_of_mem empty]
  exact List.rdropWhile_append_rtakeWhile

/-- Behind the first item, every item of a join has a delimiter in front. -/
theorem intercalate_cons (d x : List Char) (rest : List (List Char)) :
    d.intercalate (x :: rest) = x ++ rest.flatMap (d ++ ·) := by
  induction rest generalizing x with
  | nil => simp
  | cons y rest ih => rw [List.intercalate_cons_cons, ih y, List.flatMap_cons, List.append_assoc, List.append_assoc]

/-- Empty items at the end add as many delimiters to a join. -/
theorem intercalate_append_replicate (d x : List Char) (rest : List (List Char)) (k : Nat) :
    d.intercalate (x :: (rest ++ List.replicate k [])) =
      d.intercalate (x :: rest) ++ (List.replicate k d).flatten := by
  rw [intercalate_cons, intercalate_cons, List.flatMap_append, List.append_assoc]
  congr 2
  simp [List.flatMap_def]

/-- The join of some items is that of the items that are kept, with delimiters behind it. -/
theorem exists_intercalate_dropEmptyEnd (d : List Char) {items : List (List Char)} (nonempty : items ≠ []) :
    ∃ k, d.intercalate items = d.intercalate (dropEmptyEnd items) ++ (List.replicate k d).flatten := by
  obtain ⟨k, whole⟩ := dropEmptyEnd_append items
  cases kept : dropEmptyEnd items with
  | nil =>
    -- the first of the empty items has no delimiter in front
    rw [kept, List.nil_append] at whole
    cases k with
    | zero => exact absurd whole.symm nonempty
    | succ k => exact ⟨k, by rw [← whole]; exact intercalate_append_replicate d [] [] k⟩
  | cons x rest =>
    rw [kept] at whole
    exact ⟨k, by rw [← whole]; exact intercalate_append_replicate d x rest k⟩

theorem dropEmptyEnd_toList (items : List String) :
    (dropEmptyEnd (items.map String.toList)).map String.ofList = items.rdropWhile (· = "") := by
  have empty : (List.isEmpty ∘ String.toList) = fun x : String => decide (x = "") := by
    funext x
    rw [Function.comp_apply, Bool.eq_iff_iff, List.isEmpty_iff, String.toList_eq_nil_iff, decide_eq_true_iff]
  rw [dropEmptyEnd, ← List.map_reverse, List.dropWhile_map, ← List.map_reverse, List.map_map, empty]
  simp [List.rdropWhile, Function.comp_def]

/-! ## Items as characters -/

/-- No limit, or the limit zero, which stands for none. -/
def SeparateOptions.Unlimited (options : SeparateOptions) : Prop :=
  options.limit = none ∨ options.limit = some 0

instance (options : SeparateOptions) : Decidable options.Unlimited :=
  inferInstanceAs (Decidable (_ ∨ _))

theorem cutLimit_of_unlimited {options : SeparateOptions} (unlimited : options.Unlimited) (text : List Char) :
    cutLimit options.limit text = text.length + 1 := by
  rcases unlimited with none | zero
  · rw [none, cutLimit]
  · rw [zero, cutLimit]

/-- The items of a text are its pieces under cuts at the delimiter, without the empty ones at the end. -/
theorem separate_eq {options : SeparateOptions} (literal : options.delimiter.isPattern = false)
    (separator : options.delimiter.text.toList ≠ []) (s : String) :
    separate options s = (dropEmptyEnd (Text.pieces (Text.cutAt options.delimiter.text.toList)
      (cutLimit options.limit s.toList) s.toList)).map String.ofList := by
  by_cases empty : s = ""
  · subst empty
    have whole : ∀ n, Text.pieces (Text.cutAt options.delimiter.text.toList) n [] = [[]] := fun n => by
      cases n <;> rfl
    rw [String.toList_empty, whole]
    rfl
  · obtain ⟨c, rest, eq⟩ := List.exists_cons_of_ne_nil separator
    rw [separate, if_neg (by simpa using empty), separateChars, literal, eq]
    rfl

/-- The characters of items that are combined as they are. -/
theorem toList_combine (delimiter : Delimiter) (items : List (List Char)) :
    ((combine { delimiter, trim := false } (items.map String.ofList)).getD "").toList =
      delimiter.text.toList.intercalate items := by
  cases items with
  | nil => rfl
  | cons x rest => simp [combine, Function.comp_def]

/-! ## Round trips -/

/-- The items of combined items.  Items are combined with their white space or without; they all come back, but for
those at the end that are empty, if each of them is clear of the delimiter. -/
theorem separate_combine {options : SeparateOptions} (literal : options.delimiter.isPattern = false)
    (text : options.delimiter.text ≠ "") (unlimited : options.Unlimited) (trim : Bool) {items : List String}
    (nonempty : items ≠ []) :
    let kept := if trim then items.map Text.trimmed else items
    (∀ x ∈ kept, Text.Clear options.delimiter.text.toList x.toList) →
      ∃ joined, combine { delimiter := options.delimiter, trim } items = some joined ∧
        separate options joined = kept.rdropWhile (· = "") := by
  intro kept clear
  have separator : options.delimiter.text.toList ≠ [] := by simpa using text
  refine ⟨options.delimiter.text.intercalate kept, ?_, ?_⟩
  · rw [combine, if_neg (by simpa using nonempty)]
  have chars : (options.delimiter.text.intercalate kept).toList =
      options.delimiter.text.toList.intercalate (kept.map String.toList) := String.toList_intercalate
  have pieces : Text.pieces (Text.cutAt options.delimiter.text.toList)
      ((options.delimiter.text.toList.intercalate (kept.map String.toList)).length + 1)
      (options.delimiter.text.toList.intercalate (kept.map String.toList)) = kept.map String.toList := by
    refine Text.pieces_intercalate separator ?_ (List.forall_mem_map.2 clear) (Nat.le_succ _)
    cases trim <;> simpa [kept] using nonempty
  rw [separate_eq literal separator, chars, cutLimit_of_unlimited unlimited, pieces, dropEmptyEnd_toList]

/-- Items of which one begins like the delimiter, and two are empty. -/
theorem separate_combine_letters :
    let options : SeparateOptions := { delimiter := .custom "ab" }
    let items := ["a", "", " xa ", ""]
    let kept := items.map Text.trimmed
    (options.delimiter.isPattern = false ∧ options.delimiter.text ≠ "" ∧ options.Unlimited ∧ items ≠ [] ∧
        ∀ x ∈ kept, Text.Clear options.delimiter.text.toList x.toList) ∧
      kept.rdropWhile (· = "") = ["a", "", "xa"] ∧
      ∃ joined, combine { delimiter := options.delimiter } items = some joined ∧
        separate options joined = kept.rdropWhile (· = "") := by
  intro options items kept
  have literal : options.delimiter.isPattern = false := rfl
  have text : options.delimiter.text ≠ "" := by decide
  have unlimited : options.Unlimited := .inl rfl
  have nonempty : items ≠ [] := List.cons_ne_nil _ _
  have clear : ∀ x ∈ kept, Text.Clear options.delimiter.text.toList x.toList := by
    simp only [kept, items, options]
    decide
  exact ⟨⟨literal, text, unlimited, nonempty, clear⟩, by simp only [kept, items]; decide,
    separate_combine literal text unlimited true nonempty clear⟩

/-- An item that ends like the delimiter begins comes back without its end. -/
example : (combine { delimiter := .custom "--" } ["a-", "b"]).map (separate { delimiter := .custom "--" }) =
    some ["a", "-b"] := by
  cbv

/-- What the items of a text combine to.  It is the text up to delimiters at its end, whatever the limit.  The last item
is not empty, there are no more items than a limit allows, and without a limit the delimiter is in none of them. -/
theorem combine_separate {options : SeparateOptions} (literal : options.delimiter.isPattern = false)
    (text : options.delimiter.text ≠ "") (s : String) :
    let items := separate options s
    (∃ k, s = (combine { delimiter := options.delimiter, trim := false } items).getD "" ++
        String.join (List.replicate k options.delimiter.text)) ∧
      items.getLast? ≠ some "" ∧ (∀ n, 0 < n → options.limit = some n → items.length ≤ n) ∧
      (options.Unlimited → ∀ x ∈ items, ¬options.delimiter.text.toList <:+: x.toList) := by
  intro items
  have separator : options.delimiter.text.toList ≠ [] := by simpa using text
  let pieces := Text.pieces (Text.cutAt options.delimiter.text.toList) (cutLimit options.limit s.toList) s.toList
  have eq : items = (dropEmptyEnd pieces).map String.ofList := separate_eq literal separator s
  refine ⟨?_, ?_, fun n positive limit => ?_, fun unlimited => ?_⟩
  · obtain ⟨k, whole⟩ := exists_intercalate_dropEmptyEnd options.delimiter.text.toList
      (Text.pieces_ne_nil (Text.cutAt options.delimiter.text.toList) (cutLimit options.limit s.toList) s.toList)
    refine ⟨k, String.toList_injective ?_⟩
    rw [String.toList_append, eq, toList_combine, String.toList_join, List.flatMap_replicate, ← whole,
      Text.intercalate_pieces_cutAt]
  · rw [eq, List.getLast?_map]
    intro last
    obtain ⟨piece, last, empty⟩ := Option.map_eq_some_iff.1 last
    refine getLast?_dropEmptyEnd pieces (last.trans ?_)
    rw [show piece = [] by simpa using congrArg String.toList empty]
  · obtain ⟨m, rfl⟩ : ∃ m, n = m + 1 := ⟨n - 1, by omega⟩
    have cuts : cutLimit options.limit s.toList = m := by rw [limit, cutLimit]
    calc items.length = (dropEmptyEnd pieces).length := by rw [eq, List.length_map]
      _ ≤ pieces.length := (prefix_dropEmptyEnd pieces).length_le
      _ ≤ m + 1 := by rw [← cuts]; exact Text.length_pieces_le _ _ _
  · rw [eq, List.forall_mem_map]
    intro piece mem
    rw [String.toList_ofList]
    have enough : s.toList.length ≤ cutLimit options.limit s.toList := by
      rw [cutLimit_of_unlimited unlimited]
      exact Nat.le_succ _
    exact Text.not_infix_of_mem_pieces separator enough piece ((prefix_dropEmptyEnd pieces).subset mem)

/-- A text with delimiters that overlap, cut once and as often as possible. -/
theorem combine_separate_letters :
    let once : SeparateOptions := { delimiter := .custom "aa", limit := some 2 }
    let often : SeparateOptions := { delimiter := .custom "aa" }
    let s := "xaaaaaya"
    (once.delimiter.isPattern = false ∧ once.delimiter.text ≠ "" ∧ 0 < 2 ∧ once.limit = some 2 ∧
        (separate once s).length ≤ 2) ∧
      (often.delimiter.isPattern = false ∧ often.delimiter.text ≠ "" ∧ often.Unlimited ∧
        ∀ x ∈ separate often s, ¬often.delimiter.text.toList <:+: x.toList) := by
  intro once often s
  have text : "aa" ≠ "" := by decide
  obtain ⟨-, -, length, -⟩ := @combine_separate once rfl text s
  obtain ⟨-, -, -, without⟩ := @combine_separate often rfl text s
  exact ⟨⟨rfl, text, by decide, rfl, length 2 (by decide) rfl⟩, rfl, text, .inl rfl, without (.inl rfl)⟩

end FieldBinding
