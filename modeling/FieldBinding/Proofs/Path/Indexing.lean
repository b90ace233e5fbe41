import FieldBinding.Path.Algebra
import FieldBinding.Proofs.Path.Spelling

/-!
# Indexes in the brackets of a path

An index in the brackets of a segment replaces what stood there and nothing else, so indexes at different places do not
depend on each other, and of several at one place the last one counts.  A text addresses the first segment that has it
for its expression, and the first that has it for its name only if there is none.  The index may change the expression
of the segment, but never into its name, so a segment that was found by its name is found again.

Without an address an index goes into the first wildcard.  Calls in place, one after another, fill the wildcards from
left to right, and each leaves one wildcard less.  A refused call leaves the path as it is.

Main results:

* `Path.withIndexAt_withIndexAt`, `Path.withIndexAt_comm` — two indexes at one place, and at different ones.
* `Path.withIndex_of_name` — a segment that is found by its name is found by it again.
* `Path.fillAll_eq` — what becomes of a path and its calls when indexes are put into its wildcards.
* `Path.indexing` — all of this at once.
-/

namespace FieldBinding

/-! ## Segments -/

namespace Segment

variable {s : Segment} {m n : Nat}

theorem name_withIndex (s : Segment) (n : Nat) : (s.withIndex n).name = s.name := by
  obtain ⟨name, selector, isRoot⟩ := s
  cases selector <;> rfl

theorem isRoot_withIndex (s : Segment) (n : Nat) : (s.withIndex n).isRoot = s.isRoot := by
  obtain ⟨name, selector, isRoot⟩ := s
  cases selector <;> rfl

/-- The brackets themselves stay. -/
theorem bracket?_withIndex (s : Segment) (n : Nat) : (s.withIndex n).selector.bracket? = s.selector.bracket? := by
  obtain ⟨name, selector, isRoot⟩ := s
  cases selector <;> rfl

theorem isCollection_withIndex (s : Segment) (n : Nat) : (s.withIndex n).isCollection = s.isCollection := by
  rw [isCollection, bracket?_withIndex, isCollection]

/-- An index in brackets selects the element with that index, or the entry with the text of the index for its key. -/
theorem slot?_withIndex (collection : s.isCollection = true) :
    (s.withIndex n).selector.slot? =
      some (if s.selector.bracket? = some .entry then .key (Numeral.text n) else .index n) := by
  obtain ⟨name, selector, isRoot⟩ := s
  cases selector with
  | plain => cases collection
  | element kind index => rfl
  | entry key => rfl

theorem isWildcard_withIndex (collection : s.isCollection = true) : (s.withIndex n).isWildcard = false := by
  rw [isWildcard, isIndexed, slot?_withIndex collection, isCollection_withIndex, collection]
  rfl

/-- Of two indexes the second one stays. -/
theorem withIndex_withIndex (s : Segment) (m n : Nat) : (s.withIndex m).withIndex n = s.withIndex n := by
  obtain ⟨name, selector, isRoot⟩ := s
  cases selector <;> rfl

/-- A segment without brackets is written as its name. -/
theorem expression_of_plain (plain : s.isCollection = false) : s.expression = s.name := by
  obtain ⟨name, selector, isRoot⟩ := s
  cases selector with
  | plain => exact String.append_empty
  | element kind index => cases plain
  | entry key => cases plain

/-- With brackets it is not. -/
theorem expression_ne_name (collection : s.isCollection = true) : s.expression ≠ s.name := by
  obtain ⟨b, bracket⟩ := Option.isSome_iff_exists.1 collection
  intro same
  have lengths := congrArg (fun text => text.toList.length) same
  simp [expression, String.toList_append, Selector.toList_text bracket] at lengths

end Segment

namespace Path

variable {p q : Path} {s t : Segment} {i j : Nat}

theorem eq_of_segments (same : p.segments = q.segments) : p = q := by
  cases p
  cases q
  obtain ⟨rfl, rfl⟩ := List.cons.inj same
  rfl

theorem getElem?_segments_modifyAt (found : p.segments[i]? = some s) (f : Segment → Segment) :
    (p.modifyAt f i).segments[i]? = some (f s) := by
  rw [segments_modifyAt, List.getElem?_modify, found]
  simp

/-- The other segments stay. -/
theorem getElem?_segments_modifyAt_ne (apart : i ≠ j) (f : Segment → Segment) :
    (p.modifyAt f i).segments[j]? = p.segments[j]? := by
  rw [segments_modifyAt, List.getElem?_modify]
  simp [apart]

/-! ## One place -/

/-- Where an index is put into brackets there are brackets, and the index is not negative. -/
theorem withIndexAt_ok {position : Nat} {index : Int} (h : p.withIndexAt position index = .ok q) :
    ∃ s, p.segments[position]? = some s ∧ s.isCollection ∧ 0 ≤ index ∧
      q = p.modifyAt (·.withIndex index.toNat) position := by
  unfold withIndexAt at h
  cases found : p.segments[position]? with
  | none => simp [found, refuse] at h
  | some s =>
    simp only [found] at h
    split at h
    · cases h
    next collection =>
    split at h
    · cases h
    next natural =>
    cases h
    exact ⟨s, rfl, by simpa using collection, by omega, rfl⟩

theorem withIndexAt_eq (here : p.segments[i]? = some s) (brackets : s.isCollection = true) (n : Nat) :
    p.withIndexAt i n = .ok (p.modifyAt (·.withIndex n) i) := by
  have natural : ¬((n : Int) < 0) := by omega
  simp [withIndexAt, here, brackets, natural]

/-- What all segments say that an index does not change. -/
theorem map_segments_modifyAt {β : Type} {f : Segment → Segment} {g : Segment → β} (kept : ∀ s, g (f s) = g s)
    (p : Path) (i : Nat) : (p.modifyAt f i).segments.map g = p.segments.map g := by
  refine List.ext_getElem? fun j => ?_
  rw [segments_modifyAt, List.getElem?_map, List.getElem?_map, List.getElem?_modify, Option.map_eq_map, Option.map_map]
  congr 1
  funext s
  simp only [Function.comp]
  split
  · exact kept s
  · rfl

/-- Of two indexes at one place the second one stays. -/
theorem withIndexAt_withIndexAt (here : p.segments[i]? = some s) (brackets : s.isCollection = true) (m n : Nat) :
    (p.withIndexAt i m >>= fun q => q.withIndexAt i n) = p.withIndexAt i n := by
  have here' := getElem?_segments_modifyAt here (·.withIndex m)
  have brackets' : (s.withIndex m).isCollection = true := by rwa [Segment.isCollection_withIndex]
  rw [withIndexAt_eq here brackets, withIndexAt_eq here brackets]
  refine (withIndexAt_eq here' brackets' n).trans (congrArg _ (eq_of_segments ?_))
  rw [segments_modifyAt, segments_modifyAt, segments_modifyAt, List.modify_modify_eq]
  congr 1
  funext s
  exact Segment.withIndex_withIndex s m n

/-- Indexes at different places can be put there in either order. -/
theorem withIndexAt_comm (apart : i ≠ j) (here : p.segments[i]? = some s) (brackets : s.isCollection = true)
    (there : p.segments[j]? = some t) (brackets' : t.isCollection = true) (m n : Nat) :
    (p.withIndexAt i m >>= fun q => q.withIndexAt j n) = p.withIndexAt j n >>= fun q => q.withIndexAt i m := by
  have here' := (getElem?_segments_modifyAt_ne apart.symm (·.withIndex n)).trans here
  have there' := (getElem?_segments_modifyAt_ne apart (·.withIndex m)).trans there
  rw [withIndexAt_eq here brackets, withIndexAt_eq there brackets']
  refine (withIndexAt_eq there' brackets' n).trans (.trans (congrArg _ (eq_of_segments ?_))
    (withIndexAt_eq here' brackets m).symm)
  simp only [segments_modifyAt]
  exact (List.modify_modify_ne _ _ _ apart)

/-! ## Addresses -/

/-- Whether the segment at a position is the first that has a text for its expression or its name. -/
def FirstAt (p : Path) (said : Segment → String) (text : String) (i : Nat) : Prop :=
  (∃ s, p.segments[i]? = some s ∧ said s = text) ∧ ∀ j < i, ∀ s, p.segments[j]? = some s → said s ≠ text

variable {said : Segment → String} {text : String}

theorem firstAt_iff : p.FirstAt said text i ↔ p.segments.findIdx? (said · == text) = some i := by
  rw [List.findIdx?_eq_some_iff_getElem, FirstAt]
  simp only [beq_iff_eq]
  constructor
  · rintro ⟨⟨s, here, equal⟩, before⟩
    obtain ⟨inside, rfl⟩ := List.getElem?_eq_some_iff.1 here
    exact ⟨inside, equal, fun j earlier => before j earlier _ (List.getElem?_eq_getElem (by omega))⟩
  · rintro ⟨inside, equal, before⟩
    refine ⟨⟨_, List.getElem?_eq_getElem inside, equal⟩, fun j earlier s there => ?_⟩
    obtain ⟨_, rfl⟩ := List.getElem?_eq_some_iff.1 there
    exact before j earlier

/-- A text that is the expression of no segment is not found among the expressions. -/
theorem findIdx?_eq_none_of (other : ∀ s ∈ p.segments, said s ≠ text) :
    p.segments.findIdx? (said · == text) = none := by
  rw [List.findIdx?_eq_none_iff]
  exact fun s mem => beq_eq_false_iff_ne.2 (other s mem)

/-- A text addresses the first segment that has it for its expression. -/
theorem withIndex_of_expression (first : p.FirstAt Segment.expression text i) (index : Int) :
    p.withIndex text index = p.withIndexAt i index := by
  rw [withIndex, positionOf?, firstAt_iff.1 first, Option.some_or]

/-- If there is none it addresses the first that has it for its name. -/
theorem withIndex_of_name (other : ∀ s ∈ p.segments, s.expression ≠ text) (first : p.FirstAt Segment.name text i)
    (index : Int) : p.withIndex text index = p.withIndexAt i index := by
  rw [withIndex, positionOf?, findIdx?_eq_none_of other, Option.none_or, firstAt_iff.1 first]

theorem withIndex_of_none (other : ∀ s ∈ p.segments, s.expression ≠ text ∧ s.name ≠ text) (index : Int) :
    p.withIndex text index = .error ⟨p.text, .noSegmentMatches text⟩ := by
  rw [withIndex, positionOf?, findIdx?_eq_none_of fun s mem => (other s mem).1,
    findIdx?_eq_none_of fun s mem => (other s mem).2]
  rfl

/-- A segment that is found by its name has brackets, and is found by its name again with an index in them. -/
theorem withIndex_again (other : ∀ s ∈ p.segments, s.expression ≠ text) (first : p.FirstAt Segment.name text i)
    (n : Nat) : ∃ q, p.withIndex text n = .ok q ∧ q.withIndex text n = .ok q := by
  obtain ⟨⟨s, here, named⟩, before⟩ := first
  have brackets : s.isCollection = true := by
    refine Bool.of_not_eq_false fun plain => ?_
    have written := Segment.expression_of_plain plain
    exact other s (List.mem_of_getElem? here) (written.trans named)
  have twice := withIndexAt_withIndexAt here brackets n n
  rw [withIndex_of_name other ⟨⟨s, here, named⟩, before⟩]
  rw [withIndexAt_eq here brackets] at twice ⊢
  refine ⟨_, rfl, (withIndex_of_name (i := i) ?_ ?_ n).trans twice⟩
  · -- the other segments are as they were, and the brackets of this one are no part of its name
    intro t mem
    obtain ⟨j, found⟩ := List.mem_iff_getElem?.1 mem
    by_cases same : i = j
    · subst same
      rw [getElem?_segments_modifyAt here, Option.some.injEq] at found
      subst found
      rw [← named, ← Segment.name_withIndex s n]
      exact Segment.expression_ne_name (by rwa [Segment.isCollection_withIndex])
    · rw [getElem?_segments_modifyAt_ne same] at found
      exact other t (List.mem_of_getElem? found)
  · refine ⟨⟨_, getElem?_segments_modifyAt here _, (Segment.name_withIndex s n).trans named⟩, ?_⟩
    intro j earlier t found
    rw [getElem?_segments_modifyAt_ne (by omega)] at found
    exact before j earlier t found

end Path

/-! ## Wildcards -/

namespace Segment

/-- The segments with indexes in their wildcards, from left to right. -/
def fill : List Segment → List Nat → List Segment
  | s :: rest, n :: ns => if s.isWildcard then s.withIndex n :: fill rest ns else s :: fill rest (n :: ns)
  | segments, _ => segments

variable {s : Segment} {l : List Segment} {n : Nat} {ns : List Nat} {i : Nat}

theorem fill_nil (l : List Segment) : fill l [] = l := by
  cases l <;> rfl

theorem fill_cons_of_wild (wild : s.isWildcard = true) : fill (s :: l) (n :: ns) = s.withIndex n :: fill l ns :=
  if_pos wild

theorem fill_cons_of_single (single : s.isWildcard = false) : fill (s :: l) ns = s :: fill l ns := by
  cases ns with
  | nil => rw [fill_nil, fill_nil]
  | cons n ns => exact if_neg (by simp [single])

theorem isWildcard_filled (wild : s.isWildcard = true) : (s.withIndex n).isWildcard = false :=
  isWildcard_withIndex (Bool.and_eq_true_iff.1 wild).1

/-- An index in the first wildcard is the first of the indexes in all of them. -/
theorem fill_modify (first : l.findIdx? isWildcard = some i) (n : Nat) (ns : List Nat) :
    fill (l.modify i (·.withIndex n)) ns = fill l (n :: ns) := by
  induction l generalizing i with
  | nil => cases first
  | cons s l ih =>
    rw [List.findIdx?_cons] at first
    cases wild : s.isWildcard with
    | true =>
      obtain rfl : 0 = i := by simpa [wild] using first
      rw [fill_cons_of_wild wild, List.modify_zero_cons, fill_cons_of_single (isWildcard_filled wild)]
    | false =>
      obtain ⟨j, behind, rfl⟩ : ∃ j, l.findIdx? isWildcard = some j ∧ j + 1 = i := by simpa [wild] using first
      rw [fill_cons_of_single wild, List.modify_succ_cons, fill_cons_of_single wild, ih behind]

/-- An index in the first wildcard leaves one wildcard less. -/
theorem countP_modify (first : l.findIdx? isWildcard = some i) (n : Nat) :
    (l.modify i (·.withIndex n)).countP isWildcard + 1 = l.countP isWildcard := by
  induction l generalizing i with
  | nil => cases first
  | cons s l ih =>
    rw [List.findIdx?_cons] at first
    cases wild : s.isWildcard with
    | true =>
      obtain rfl : 0 = i := by simpa [wild] using first
      rw [List.modify_zero_cons, List.countP_cons_of_neg (by simp [isWildcard_filled wild]),
        List.countP_cons_of_pos wild]
    | false =>
      obtain ⟨j, behind, rfl⟩ : ∃ j, l.findIdx? isWildcard = some j ∧ j + 1 = i := by simpa [wild] using first
      rw [List.modify_succ_cons, List.countP_cons_of_neg (by simp [wild]), List.countP_cons_of_neg (by simp [wild]),
        ih behind]

theorem length_fill (l : List Segment) (ns : List Nat) : (fill l ns).length = l.length := by
  induction l generalizing ns with
  | nil => rfl
  | cons s l ih =>
    cases ns with
    | nil => rw [fill_nil]
    | cons n ns =>
      cases wild : s.isWildcard with
      | true => rw [fill_cons_of_wild wild, List.length_cons, ih, List.length_cons]
      | false => rw [fill_cons_of_single wild, List.length_cons, ih, List.length_cons]

/-- A wildcard is given the index that has as many in front of it as the wildcard has wildcards. -/
theorem getElem?_fill (enough : ns.length = l.countP isWildcard) (found : l[i]? = some s) :
    (s.isWildcard = false → (fill l ns)[i]? = some s) ∧
      (s.isWildcard = true →
        ∃ n, ns[(l.take i).countP isWildcard]? = some n ∧ (fill l ns)[i]? = some (s.withIndex n)) := by
  induction l generalizing i ns with
  | nil => cases found
  | cons t l ih =>
    cases wild : t.isWildcard with
    | true =>
      rw [List.countP_cons_of_pos wild] at enough
      obtain ⟨n, ns, rfl⟩ := List.exists_cons_of_length_eq_add_one enough
      rw [fill_cons_of_wild wild]
      cases i with
      | zero =>
        obtain rfl : t = s := Option.some.inj found
        exact ⟨fun single => absurd (wild.symm.trans single) nofun, fun _ => ⟨n, rfl, rfl⟩⟩
      | succ i =>
        rw [List.take_succ_cons, List.countP_cons_of_pos wild]
        exact ih (Nat.succ.inj enough) found
    | false =>
      rw [List.countP_cons_of_neg (by simp [wild])] at enough
      rw [fill_cons_of_single wild]
      cases i with
      | zero =>
        obtain rfl : t = s := Option.some.inj found
        exact ⟨fun _ => rfl, fun wild' => absurd (wild.symm.trans wild') nofun⟩
      | succ i =>
        rw [List.take_succ_cons, List.countP_cons_of_neg (by simp [wild])]
        exact ih enough found

end Segment

namespace Path

/-- A call that puts an index into the first wildcard of a path in place: its answer, and the path that it leaves.  A
refused call leaves the path as it is. -/
def fillVacant (p : Path) (index : Int) : Except PathError Unit × Path :=
  match p.withVacantIndex index with
  | .ok q => (.ok (), q)
  | .error e => (.error e, p)

/-- The answers of such calls one after another, and the path that they leave. -/
def fillAll (p : Path) : List Int → List (Except PathError Unit) × Path
  | [] => ([], p)
  | index :: rest =>
    let (answer, q) := p.fillVacant index
    let (answers, last) := q.fillAll rest
    (answer :: answers, last)

variable {p : Path}

/-- A call fills the first wildcard, if there is one. -/
theorem fillVacant_eq (wild : 0 < p.segments.countP Segment.isWildcard) (n : Nat) :
    ∃ i, p.segments.findIdx? Segment.isWildcard = some i ∧
      p.fillVacant n = (.ok (), p.modifyAt (·.withIndex n) i) := by
  obtain ⟨i, first⟩ : ∃ i, p.segments.findIdx? Segment.isWildcard = some i := by
    rw [← Option.isSome_iff_exists, List.findIdx?_isSome]
    simpa using List.countP_pos_iff.1 wild
  obtain ⟨inside, wild, -⟩ := List.findIdx?_eq_some_iff_getElem.1 first
  refine ⟨i, first, ?_⟩
  rw [fillVacant, withVacantIndex, first]
  simp only [withIndexAt_eq (List.getElem?_eq_getElem inside) (Bool.and_eq_true_iff.1 wild).1]

/-- Without a wildcard every call is refused. -/
theorem fillAll_full (full : p.segments.countP Segment.isWildcard = 0) (indexes : List Int) :
    p.fillAll indexes = (.replicate indexes.length (.error ⟨p.text, .noVacantSegment⟩), p) := by
  have none : p.segments.findIdx? Segment.isWildcard = none := by
    rw [List.findIdx?_eq_none_iff]
    exact fun s mem => Bool.eq_false_iff.2 (List.countP_eq_zero.1 full s mem)
  induction indexes with
  | nil => rfl
  | cons index rest ih =>
    have refused : p.fillVacant index = (.error ⟨p.text, .noVacantSegment⟩, p) := by
      simp only [fillVacant, withVacantIndex, none, refuse]
    rw [fillAll, refused]
    simp only [ih]
    rfl

/-- As many calls as there are wildcards fill all of them, and all calls behind them are refused. -/
theorem fillAll_eq {ns : List Nat} (enough : ns.length = p.segments.countP Segment.isWildcard) :
    ∃ q, q.segments = Segment.fill p.segments ns ∧ ∀ more : List Int,
      p.fillAll (ns.map (fun n : Nat => (n : Int)) ++ more) =
        (.replicate ns.length (.ok ()) ++ .replicate more.length (.error ⟨q.text, .noVacantSegment⟩), q) := by
  induction ns generalizing p with
  | nil => exact ⟨p, (Segment.fill_nil _).symm, fillAll_full enough.symm⟩
  | cons n ns ih =>
    obtain ⟨i, first, filled⟩ := fillVacant_eq (p := p) (by rw [← enough]; exact Nat.succ_pos _) n
    have fewer := Segment.countP_modify first n
    rw [← segments_modifyAt, ← enough, List.length_cons] at fewer
    obtain ⟨q, segments, calls⟩ := ih (Nat.succ.inj fewer).symm
    refine ⟨q, ?_, fun more => ?_⟩
    · rw [segments, segments_modifyAt, Segment.fill_modify first]
    · rw [List.map_cons, List.cons_append, fillAll, filled]
      simp only [calls more]
      rfl

/-! ## All of it -/

/-- The algebra of indexes.

An index at the place of a segment with brackets changes nothing but what that segment selects: the element with the
index, or the entry with the text of the index for its key.  Of two indexes at one place the second one stays, and
indexes at different places can be put there in either order.

A text addresses the first segment that has it for its expression; only if there is none the first that has it for its
name, and then the same call once more changes nothing.

As many calls as a path has wildcards fill them from left to right, each with its own index, and leave everything else
as it is; all calls behind them are refused and leave the path as it is. -/
theorem indexing (p : Path) :
    (∀ i s (n : Nat), p.segments[i]? = some s → s.isCollection = true →
        ∃ q t, p.withIndexAt i n = .ok q ∧ (∀ j, i ≠ j → q.segments[j]? = p.segments[j]?) ∧
          q.segments.map (·.name) = p.segments.map (·.name) ∧
          q.segments.map (·.selector.bracket?) = p.segments.map (·.selector.bracket?) ∧
          q.segments.map (·.isRoot) = p.segments.map (·.isRoot) ∧
          q.segments[i]? = some t ∧
          t.selector.slot? = some (if s.selector.bracket? = some .entry then .key (Numeral.text n) else .index n)) ∧
      (∀ i s (m n : Nat), p.segments[i]? = some s → s.isCollection = true →
        ∃ q, (p.withIndexAt i m >>= fun q => q.withIndexAt i n) = .ok q ∧ p.withIndexAt i n = .ok q) ∧
      (∀ i j s t (m n : Nat), i ≠ j → p.segments[i]? = some s → s.isCollection = true → p.segments[j]? = some t →
        t.isCollection = true →
        ∃ q, (p.withIndexAt i m >>= fun q => q.withIndexAt j n) = .ok q ∧
          (p.withIndexAt j n >>= fun q => q.withIndexAt i m) = .ok q) ∧
      (∀ text i, p.FirstAt Segment.expression text i → ∀ index, p.withIndex text index = p.withIndexAt i index) ∧
      (∀ text i, (∀ s ∈ p.segments, s.expression ≠ text) → p.FirstAt Segment.name text i →
        (∀ index, p.withIndex text index = p.withIndexAt i index) ∧
          ∀ n : Nat, ∃ q, p.withIndex text n = .ok q ∧ q.withIndex text n = .ok q) ∧
      (∀ text, (∀ s ∈ p.segments, s.expression ≠ text ∧ s.name ≠ text) →
        ∀ index, p.withIndex text index = .error ⟨p.text, .noSegmentMatches text⟩) ∧
      ∀ ns : List Nat, ns.length = p.segments.countP Segment.isWildcard →
        ∃ q, (∀ more : List Int, p.fillAll (ns.map (fun n : Nat => (n : Int)) ++ more) =
            (.replicate ns.length (.ok ()) ++ .replicate more.length (.error ⟨q.text, .noVacantSegment⟩), q)) ∧
          q.segments.length = p.segments.length ∧
          ∀ i s, p.segments[i]? = some s → (s.isWildcard = false → q.segments[i]? = some s) ∧
            (s.isWildcard = true → ∃ n, ns[(p.segments.take i).countP Segment.isWildcard]? = some n ∧
              q.segments[i]? = some (s.withIndex n)) := by
  refine ⟨fun i s n here brackets => ?_, fun i s m n here brackets => ?_,
    fun i j s t m n apart here brackets there brackets' => ?_, fun text i => withIndex_of_expression,
    fun text i other first => ⟨withIndex_of_name other first, withIndex_again other first⟩,
    fun text => withIndex_of_none, fun ns enough => ?_⟩
  · exact ⟨_, _, withIndexAt_eq here brackets n, fun j apart => getElem?_segments_modifyAt_ne apart _,
      map_segments_modifyAt (Segment.name_withIndex · n) p i,
      map_segments_modifyAt (Segment.bracket?_withIndex · n) p i,
      map_segments_modifyAt (Segment.isRoot_withIndex · n) p i, getElem?_segments_modifyAt here _,
      Segment.slot?_withIndex brackets⟩
  · have once := withIndexAt_eq here brackets n
    exact ⟨_, (withIndexAt_withIndexAt here brackets m n).trans once, once⟩
  · have brackets'' := getElem?_segments_modifyAt_ne apart (·.withIndex m) ▸ there
    have both := withIndexAt_comm apart here brackets there brackets' m n
    rw [withIndexAt_eq here brackets] at both ⊢
    have last := withIndexAt_eq brackets'' brackets' n
    exact ⟨_, last, both.symm.trans last⟩
  · obtain ⟨q, segments, calls⟩ := fillAll_eq enough
    refine ⟨q, calls, by rw [segments, Segment.length_fill], fun i s here => ?_⟩
    rw [segments]
    exact Segment.getElem?_fill enough here

/-- Two segments of the path `/rows<>/m{}/rows[]` have the same name, and all of them are wildcards. -/
theorem indexing_rows :
    let p : Path := ⟨.root, [⟨"rows", .element .list none, false⟩, ⟨"m", .entry none, false⟩,
      ⟨"rows", .element .array none, false⟩]⟩
    (∃ q t, p.withIndexAt 2 7 = .ok q ∧ q.segments[2]? = some t ∧ t.selector.slot? = some (.key "7")) ∧
      p.withIndex "rows[]" 5 = p.withIndexAt 3 5 ∧ p.withIndex "rows" 5 = p.withIndexAt 1 5 ∧
      (∃ q, p.withIndex "rows" 5 = .ok q ∧ q.withIndex "rows" 5 = .ok q) ∧
      ∃ q, p.fillAll [1, 2, 3, 4] = ([.ok (), .ok (), .ok (), .error ⟨q.text, .noVacantSegment⟩], q) ∧
        q.segments[2]? = some ⟨"m", .entry (some "2"), false⟩ := by
  intro p
  obtain ⟨one, -, -, byExpression, byName, -, vacant⟩ := indexing p
  obtain ⟨q, t, put, -, -, -, -, here, selects⟩ := one 2 _ 7 rfl rfl
  have other : ∀ s ∈ p.segments, s.expression ≠ "rows" := by decide
  obtain ⟨addressed, again⟩ := byName "rows" 1 other (firstAt_iff.2 (by decide))
  obtain ⟨r, calls, -, places⟩ := vacant [1, 2, 3] (by decide)
  obtain ⟨n, second, filled⟩ := (places 2 _ rfl).2 rfl
  cases second
  exact ⟨⟨q, t, put, here, selects⟩, byExpression "rows[]" 3 (firstAt_iff.2 (by decide)) 5, addressed 5, again 5, r,
    calls [4], filled⟩

end Path

end FieldBinding
