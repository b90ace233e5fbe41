import FieldBinding.Path.Record
import FieldBinding.Proofs.Path.Indexing
import FieldBinding.Proofs.Path.Text
import Mathlib.Data.List.Basic

/-!
# The parts of a path agree

A record of a segment says some things twice: its text can be told from its name, its brackets and what is in them, and
a record of a path flags its root, which stands in front.  A segment whose parts agree is *intact*, and so is a path of
such segments in which the first and no other is the root.

Intact paths are the records of those paths whose root is in its place, and a call on the record of such a path is the
call on the path itself.  So a call on an intact path gives an intact path.  No operation has to be looked at for what
it does to a text: the text of a `Segment` is no part of it, and cannot get out of step.  What is left are the flags.

Main results:

* `Path.call_record`, `Path.parse_record` — records are read and changed as the paths are.
* `PathRecord.intact_iff` — which records are intact.
* `PathRecord.Intact.call` — a call keeps a path intact.
* `PathRecord.reachable_intact` — all paths that calls can make are intact, and a refused call leaves a path as it is.
-/

namespace FieldBinding

/-! ## Segments -/

/-- Between the brackets stands the index or the key, if there is one. -/
theorem Selector.inner_eq (s : Selector) : s.inner = ((s.index?.map Numeral.text).or s.key?).getD "" := by
  cases s with
  | plain => rfl
  | element kind index => cases index <;> rfl
  | entry key => cases key <;> rfl

theorem SegmentRecord.collection_eq (name : String) (b : Bracket) (index : Option Nat) (key : Option String)
    (isRoot : Bool) :
    collection name b index key isRoot = ⟨name, some b, index, key,
      name ++ b.opening.toString ++ ((index.map Numeral.text).or key).getD "" ++ b.closing.toString, isRoot⟩ := by
  cases index <;> cases key <;> rfl

namespace Segment

/-- The parts of a segment side by side. -/
def record (s : Segment) : SegmentRecord :=
  ⟨s.name, s.selector.bracket?, s.selector.index?, s.selector.key?, s.expression, s.isRoot⟩

theorem expression_plain (name : String) (isRoot : Bool) : (⟨name, .plain, isRoot⟩ : Segment).expression = name :=
  String.append_empty

theorem record_plain (name : String) (isRoot : Bool) :
    (⟨name, .plain, isRoot⟩ : Segment).record = { SegmentRecord.field name with isRoot } := by
  simp only [record, expression_plain]
  rfl

/-- Behind the name stand the brackets around the index or the key. -/
theorem expression_of_bracket (s : Segment) {b : Bracket} (bracket : s.selector.bracket? = some b) :
    s.expression = s.name ++ b.opening.toString ++ ((s.selector.index?.map Numeral.text).or s.selector.key?).getD "" ++
      b.closing.toString := by
  simp only [expression, Selector.text, bracket, Selector.inner_eq, String.append_assoc]

theorem record_of_bracket (s : Segment) {b : Bracket} (bracket : s.selector.bracket? = some b) :
    s.record = .collection s.name b s.selector.index? s.selector.key? s.isRoot := by
  rw [SegmentRecord.collection_eq, ← expression_of_bracket s bracket, ← bracket]
  rfl

theorem record_withIndex (s : Segment) (n : Nat) : (s.withIndex n).record = s.record.withIndex n := by
  obtain ⟨name, selector, isRoot⟩ := s
  cases selector with
  | plain => rfl
  | element kind index => exact record_of_bracket ⟨name, .element kind (some n), isRoot⟩ rfl
  | entry key => exact record_of_bracket ⟨name, .entry (some (Numeral.text n)), isRoot⟩ rfl

theorem record_withKey (s : Segment) (key : String) : (s.withKey key).record = s.record.withKey key := by
  obtain ⟨name, selector, isRoot⟩ := s
  cases selector with
  | plain => rfl
  | element kind index => rfl
  | entry _ => exact record_of_bracket ⟨name, .entry (some key), isRoot⟩ rfl

theorem record_withoutBrackets (s : Segment) : s.withoutBrackets.record = s.record.withoutBrackets :=
  record_plain s.name s.isRoot

theorem record_root : Segment.root.record = .root :=
  record_plain "" true

theorem record_field (name : String) : (Segment.field name).record = .field name :=
  record_plain name false

theorem isRoot_withKey (s : Segment) (key : String) : (s.withKey key).isRoot = s.isRoot := by
  obtain ⟨name, selector, isRoot⟩ := s
  cases selector <;> rfl

theorem isCollection_record (s : Segment) : s.record.isCollection = s.isCollection := rfl

theorem isWildcard_record (s : Segment) : s.record.isWildcard = s.isWildcard := by
  obtain ⟨name, selector, isRoot⟩ := s
  cases selector with
  | plain => rfl
  | element kind index => cases index <;> rfl
  | entry key => cases key <;> rfl

theorem record_ofPiece (isRoot : Bool) (piece : List Char) :
    (Segment.ofPiece isRoot piece).record = .ofPiece isRoot piece := by
  unfold Segment.ofPiece SegmentRecord.ofPiece bracketed?
  cases piece.getLast?.bind Bracket.ofClosing? with
  | none => exact record_plain _ _
  | some b =>
    simp only [Option.bind_eq_bind, Option.bind_some]
    cases cutAtLast b.opening piece.dropLast with
    | none => exact record_plain _ _
    | some cut =>
      obtain ⟨name, inner⟩ := cut
      cases b with
      | entry => cases inner <;> exact record_of_bracket _ rfl
      | element kind =>
        cases inner with
        | nil => exact record_of_bracket _ rfl
        | cons c rest =>
          cases number : Numeral.canonical? (c :: rest) with
          | none =>
            simp only [Option.bind_some, Bracket.selector?, number, Option.map_none, Option.bind_none]
            exact record_plain _ _
          | some n =>
            simp only [Option.bind_some, Bracket.selector?, number, Option.map_some]
            exact record_of_bracket _ rfl

end Segment

/-! ## Paths -/

namespace Path

/-- The segments of a path in a row, each with its parts side by side. -/
def record (p : Path) : PathRecord :=
  ⟨p.segments.map Segment.record⟩

/-- Exactly the first segment is the root. -/
structure Rooted (p : Path) : Prop where
  head : p.head.isRoot = true
  tail : ∀ s ∈ p.tail, s.isRoot = false

variable {p : Path}

theorem record_eq_of_segments {r : PathRecord} (h : p.segments.map Segment.record = r.segments) : p.record = r :=
  congrArg PathRecord.mk h

theorem chars_record (p : Path) : p.record.chars = p.chars := by
  simp only [record, segments, List.map_cons, PathRecord.chars, List.foldl_map]
  rfl

theorem text_record (p : Path) : p.record.text = p.text :=
  congrArg String.ofList p.chars_record

theorem refuse_record (p : Path) (fault : PathFault) : p.record.refuse fault = (p.refuse fault).map record := by
  rw [PathRecord.refuse, text_record]
  rfl

theorem getElem?_record (p : Path) (i : Nat) : p.record.segments[i]? = p.segments[i]?.map Segment.record :=
  List.getElem?_map

theorem findIdx?_record (f : SegmentRecord → Bool) (p : Path) :
    p.record.segments.findIdx? f = p.segments.findIdx? fun s => f s.record :=
  List.findIdx?_map

theorem positionOf?_record (p : Path) (text : String) : p.record.positionOf? text = p.positionOf? text := by
  rw [PathRecord.positionOf?, findIdx?_record, findIdx?_record]
  rfl

/-- A segment that is changed in the path is changed in the record. -/
theorem record_modifyAt {f : Segment → Segment} {f' : SegmentRecord → SegmentRecord}
    (same : ∀ s, (f s).record = f' s.record) (p : Path) (i : Nat) :
    (p.modifyAt f i).record = ⟨p.record.segments.modify i f'⟩ := by
  refine record_eq_of_segments (List.ext_getElem? fun j => ?_)
  rw [segments_modifyAt, List.getElem?_map, List.getElem?_modify, List.getElem?_modify, getElem?_record]
  cases p.segments[j]? with
  | none => rfl
  | some s =>
    by_cases here : i = j
    · simp [here, same]
    · simp [here]

theorem record_set {f : Segment → Segment} (f' : SegmentRecord → SegmentRecord)
    (same : ∀ s, (f s).record = f' s.record) {i : Nat} {s : Segment} (found : p.segments[i]? = some s) :
    (p.modifyAt f i).record = ⟨p.record.segments.set i (f' s.record)⟩ := by
  rw [record_modifyAt same, List.modify_eq_set_getElem?, getElem?_record, found]
  rfl

/-! ### Filling brackets -/

theorem withIndexAt_record (p : Path) (position : Nat) (index : Int) :
    p.record.withIndexAt position index = (p.withIndexAt position index).map record := by
  unfold PathRecord.withIndexAt withIndexAt
  rw [getElem?_record]
  cases found : p.segments[position]? with
  | none => exact refuse_record p _
  | some s =>
    have same := Segment.isCollection_record s
    cases brackets : s.isCollection with
    | false =>
      simp only [Option.map_some, same, brackets]
      exact refuse_record p _
    | true =>
      simp only [Option.map_some, same, brackets]
      by_cases negative : index < 0
      · simp only [negative]
        exact refuse_record p _
      · simp only [negative]
        exact congrArg Except.ok (record_set (·.withIndex index.toNat) (Segment.record_withIndex · _) found).symm

theorem withIndex_record (p : Path) (segment : String) (index : Int) :
    p.record.withIndex segment index = (p.withIndex segment index).map record := by
  unfold PathRecord.withIndex withIndex
  rw [positionOf?_record]
  cases p.positionOf? segment with
  | none => exact refuse_record p _
  | some position => exact withIndexAt_record p position index

theorem withVacantIndex_record (p : Path) (index : Int) :
    p.record.withVacantIndex index = (p.withVacantIndex index).map record := by
  unfold PathRecord.withVacantIndex withVacantIndex
  simp only [findIdx?_record, Segment.isWildcard_record]
  cases p.segments.findIdx? Segment.isWildcard with
  | none => exact refuse_record p _
  | some position => exact withIndexAt_record p position index

theorem withKeyAt_record (p : Path) (position : Nat) (key : String) :
    p.record.withKeyAt position key = (p.withKeyAt position key).map record := by
  unfold PathRecord.withKeyAt withKeyAt
  rw [getElem?_record]
  cases found : p.segments[position]? with
  | none => exact refuse_record p _
  | some s =>
    obtain ⟨name, selector, isRoot⟩ := s
    cases selector with
    | plain => exact refuse_record p _
    | element kind index => exact refuse_record p _
    | entry old => exact congrArg Except.ok (record_set (·.withKey key) (Segment.record_withKey · key) found).symm

/-! ### Removing brackets -/

theorem withoutBrackets_record (p : Path) (segment : String) :
    p.record.withoutBrackets segment = (p.withoutBrackets segment).map record := by
  unfold PathRecord.withoutBrackets withoutBrackets
  rw [positionOf?_record]
  cases p.positionOf? segment with
  | none => exact refuse_record p _
  | some position => exact congrArg Except.ok (record_modifyAt Segment.record_withoutBrackets p position).symm

theorem withoutAllBrackets_record (p : Path) : p.record.withoutAllBrackets = p.withoutAllBrackets.record := by
  refine (record_eq_of_segments (List.ext_getElem? fun i => ?_)).symm
  cases i with
  | zero => simp [record, segments, withoutAllBrackets, PathRecord.withoutAllBrackets]
  | succ i =>
    simp [record, segments, withoutAllBrackets, PathRecord.withoutAllBrackets, Function.comp_def,
      Segment.record_withoutBrackets]

/-! ### Shortening and lengthening -/

theorem parent_record (p : Path) : p.record.parent = p.parent.record := by
  obtain ⟨head, tail⟩ := p
  cases tail with
  | nil => rfl
  | cons s tail =>
    refine (record_eq_of_segments ?_).symm
    simp [record, segments, parent, PathRecord.parent, List.dropLast_eq_take]

theorem withoutFirst_record (p : Path) : p.record.withoutFirst = p.withoutFirst.record := by
  obtain ⟨head, tail⟩ := p
  cases tail with
  | nil => rfl
  | cons s tail => rfl

/-- Segments below the root are children already. -/
theorem relativeTo_record (rooted : p.Rooted) (position : Nat) :
    p.record.relativeTo position = (p.relativeTo position).record := by
  refine (record_eq_of_segments ?_).symm
  simp only [record, segments, relativeTo, PathRecord.relativeTo, Segment.record_root, List.map_cons,
    List.drop_succ_cons, List.cons.injEq, true_and, ← List.map_drop, List.map_map]
  refine List.map_congr_left fun s mem => ?_
  -- the flag that is taken away is not there
  rw [Function.comp, SegmentRecord.asChild, ← rooted.tail s (List.mem_of_mem_drop mem)]
  rfl

theorem child_record (p : Path) (name : String) : p.record.child name = (p.child name).record := by
  refine (record_eq_of_segments ?_).symm
  simp [record, segments, child, PathRecord.child, Segment.record_field]

theorem upTo_record (p : Path) (position : Nat) : p.record.upTo position = (p.upTo position).record := by
  refine (record_eq_of_segments ?_).symm
  simp [record, segments, upTo, PathRecord.upTo]

/-! ## Reading -/

theorem record_ofPieces (pieces : List (List Char)) : (ofPieces pieces).record = .ofPieces pieces := by
  have below (pieces : List (List Char)) :
      ((pieces.filter (!·.isEmpty)).map (Segment.ofPiece false)).map Segment.record =
        (pieces.filter (!·.isEmpty)).map (SegmentRecord.ofPiece false) := by
    rw [List.map_map]
    exact List.map_congr_left fun piece _ => Segment.record_ofPiece false piece
  cases pieces with
  | nil => exact record_eq_of_segments (congrArg (List.cons · []) Segment.record_root)
  | cons first others =>
    have candidate := Segment.record_ofPiece true first
    simp only [ofPieces, PathRecord.ofPieces, ← candidate, ← Segment.record_root, ← below]
    exact apply_ite record _ _ _

theorem parse_record (text : String) : PathRecord.parse text = (parse text).map record := by
  unfold PathRecord.parse parse
  split
  · rfl
  · exact congrArg Except.ok (record_ofPieces _).symm

theorem rooted_root : root.Rooted :=
  ⟨rfl, nofun⟩

theorem rooted_of_parse {text : String} (read : parse text = .ok p) : p.Rooted := by
  have spelled := spelled_of_parse read
  refine ⟨?_, fun s mem => (spelled.tail s mem).2.1⟩
  rcases spelled.head with plain | ⟨-, isRoot⟩
  · exact congrArg Segment.isRoot plain
  · exact isRoot

/-! ## Calls -/

namespace Rooted

variable {q : Path}

/-- Where no flag is changed, the root stays the root. -/
theorem of_same (rooted : p.Rooted) (same : q.segments.map Segment.isRoot = p.segments.map Segment.isRoot) :
    q.Rooted := by
  obtain ⟨head, tail⟩ := List.cons.inj same
  refine ⟨head.trans rooted.head, fun s mem => ?_⟩
  have flagged : s.isRoot ∈ p.tail.map Segment.isRoot := tail ▸ List.mem_map_of_mem mem
  obtain ⟨t, below, flag⟩ := List.mem_map.1 flagged
  exact flag.symm.trans (rooted.tail t below)

theorem modifyAt (rooted : p.Rooted) {f : Segment → Segment} (kept : ∀ s, (f s).isRoot = s.isRoot) (i : Nat) :
    (p.modifyAt f i).Rooted :=
  rooted.of_same (map_segments_modifyAt kept p i)

/-- Without some of the segments below it the root stays the root. -/
theorem cut (rooted : p.Rooted) {tail : List Segment} (fewer : tail ⊆ p.tail) : (Path.mk p.head tail).Rooted :=
  ⟨rooted.head, fun s mem => rooted.tail s (fewer mem)⟩

theorem withIndexAt (rooted : p.Rooted) {position : Nat} {index : Int} (made : p.withIndexAt position index = .ok q) :
    q.Rooted := by
  obtain ⟨-, -, -, -, rfl⟩ := withIndexAt_ok made
  exact rooted.modifyAt (Segment.isRoot_withIndex · _) position

theorem withIndex (rooted : p.Rooted) {segment : String} {index : Int} (made : p.withIndex segment index = .ok q) :
    q.Rooted := by
  unfold Path.withIndex at made
  split at made
  · cases made
  · exact rooted.withIndexAt made

theorem withVacantIndex (rooted : p.Rooted) {index : Int} (made : p.withVacantIndex index = .ok q) : q.Rooted := by
  unfold Path.withVacantIndex at made
  split at made
  · cases made
  · exact rooted.withIndexAt made

theorem withKeyAt (rooted : p.Rooted) {position : Nat} {key : String} (made : p.withKeyAt position key = .ok q) :
    q.Rooted := by
  unfold Path.withKeyAt at made
  split at made
  · cases made
    exact rooted.modifyAt (Segment.isRoot_withKey · key) position
  · cases made

theorem withoutBrackets (rooted : p.Rooted) {segment : String} (made : p.withoutBrackets segment = .ok q) :
    q.Rooted := by
  unfold Path.withoutBrackets at made
  split at made
  · cases made
  · cases made
    exact rooted.modifyAt (f := Segment.withoutBrackets) (fun _ => rfl) _

theorem withoutAllBrackets (rooted : p.Rooted) : p.withoutAllBrackets.Rooted := by
  refine rooted.of_same ?_
  simp [Path.withoutAllBrackets, segments, Segment.withoutBrackets]

/-- A root with segments below it that are not. -/
theorem relativeTo (rooted : p.Rooted) (position : Nat) : (p.relativeTo position).Rooted :=
  ⟨rfl, fun s mem => rooted.tail s (List.mem_of_mem_drop mem)⟩

theorem child (rooted : p.Rooted) (name : String) : (p.child name).Rooted := by
  refine ⟨rooted.head, fun s mem => ?_⟩
  rcases List.mem_append.1 mem with old | new
  · exact rooted.tail s old
  · rw [List.mem_singleton.1 new]
    rfl

/-- No call moves the root. -/
theorem call (rooted : p.Rooted) {c : PathCall} (made : p.call c = .ok q) : q.Rooted := by
  cases c with
  | withIndex segment index => exact rooted.withIndex made
  | withIndexAt position index => exact rooted.withIndexAt made
  | withKeyAt position key => exact rooted.withKeyAt made
  | withVacantIndex index => exact rooted.withVacantIndex made
  | withoutBrackets segment => exact rooted.withoutBrackets made
  | withoutAllBrackets => cases made; exact rooted.withoutAllBrackets
  | parent => cases made; exact rooted.cut (List.dropLast_subset p.tail)
  | withoutFirst => cases made; exact rooted.cut (List.tail_sublist p.tail).subset
  | relativeTo position => cases made; exact rooted.relativeTo position
  | child name => cases made; exact rooted.child name
  | upTo position => cases made; exact rooted.cut (List.take_subset position p.tail)

end Rooted

/-- A call on the record of a path is the call on the path. -/
theorem call_record (rooted : p.Rooted) (c : PathCall) : p.record.call c = (p.call c).map record := by
  cases c with
  | withIndex segment index => exact withIndex_record p segment index
  | withIndexAt position index => exact withIndexAt_record p position index
  | withKeyAt position key => exact withKeyAt_record p position key
  | withVacantIndex index => exact withVacantIndex_record p index
  | withoutBrackets segment => exact withoutBrackets_record p segment
  | withoutAllBrackets => exact congrArg Except.ok (withoutAllBrackets_record p)
  | parent => exact congrArg Except.ok (parent_record p)
  | withoutFirst => exact congrArg Except.ok (withoutFirst_record p)
  | relativeTo position => exact congrArg Except.ok (relativeTo_record rooted position)
  | child name => exact congrArg Except.ok (child_record p name)
  | upTo position => exact congrArg Except.ok (upTo_record p position)

end Path

/-! ## Parts in agreement -/

/-- A segment whose parts agree: its text is its name and the brackets of its kind around the index or the key, and only
brackets that can hold an index or a key have one. -/
structure SegmentRecord.Intact (s : SegmentRecord) : Prop where
  text_plain : s.bracket? = none → s.expression = s.name
  text_brackets : ∀ b, s.bracket? = some b →
    s.expression =
      s.name ++ b.opening.toString ++ ((s.index.map Numeral.text).or s.key).getD "" ++ b.closing.toString
  plain : s.bracket? = none → s.index = none ∧ s.key = none
  element : ∀ kind, s.bracket? = some (.element kind) → s.key = none
  entry : s.bracket? = some .entry → s.index = none

/-- A path that has segments, all of them intact, and of which the first and no other is the root. -/
structure PathRecord.Intact (p : PathRecord) : Prop where
  nonempty : p.segments ≠ []
  isRoot_iff : ∀ i s, p.segments[i]? = some s → (s.isRoot = true ↔ i = 0)
  segments : ∀ s ∈ p.segments, s.Intact

/-- The parts of a segment agree. -/
theorem Segment.intact_record (s : Segment) : s.record.Intact := by
  obtain ⟨name, selector, isRoot⟩ := s
  cases selector with
  | plain => exact ⟨fun _ => expression_plain name isRoot, nofun, fun _ => ⟨rfl, rfl⟩, nofun, nofun⟩
  | element kind index =>
    exact ⟨nofun, fun _ => expression_of_bracket ⟨name, .element kind index, isRoot⟩, nofun, fun _ _ => rfl, nofun⟩
  | entry key =>
    exact ⟨nofun, fun _ => expression_of_bracket ⟨name, .entry key, isRoot⟩, nofun, nofun, fun _ => rfl⟩

namespace SegmentRecord

/-- The segment that the parts describe, whatever its text is. -/
def segment (s : SegmentRecord) : Segment :=
  { name := s.name
    selector := match s.bracket? with
      | none => .plain
      | some (.element kind) => .element kind s.index
      | some .entry => .entry s.key
    isRoot := s.isRoot }

/-- The text of parts that agree is determined by the others. -/
theorem Intact.ext {s t : SegmentRecord} (intact : s.Intact) (intact' : t.Intact) (name : s.name = t.name)
    (bracket : s.bracket? = t.bracket?) (index : s.index = t.index) (key : s.key = t.key)
    (isRoot : s.isRoot = t.isRoot) : s = t := by
  have text : s.expression = t.expression := by
    cases brackets : s.bracket? with
    | none => rw [intact.text_plain brackets, intact'.text_plain (bracket ▸ brackets), name]
    | some b =>
      rw [intact.text_brackets b brackets, intact'.text_brackets b (bracket ▸ brackets), name, index, key]
  cases s
  cases t
  simp_all only

/-- Parts that agree are the parts of a segment. -/
theorem record_segment {s : SegmentRecord} (intact : s.Intact) : s.segment.record = s := by
  obtain ⟨name, bracket?, index, key, expression, isRoot⟩ := s
  have agree := Segment.intact_record (segment ⟨name, bracket?, index, key, expression, isRoot⟩)
  cases bracket? with
  | none =>
    obtain ⟨index, key⟩ := intact.plain rfl
    exact agree.ext intact rfl rfl index.symm key.symm rfl
  | some b =>
    cases b with
    | element kind => exact agree.ext intact rfl rfl rfl (intact.element kind rfl).symm rfl
    | entry => exact agree.ext intact rfl rfl (intact.entry rfl).symm rfl rfl

end SegmentRecord

namespace PathRecord

variable {r q : PathRecord}

theorem intact_record {p : Path} (rooted : p.Rooted) : p.record.Intact := by
  refine ⟨List.cons_ne_nil _ _, fun i s found => ?_, fun s mem => ?_⟩
  · cases i with
    | zero =>
      obtain rfl : p.head.record = s := Option.some.inj found
      exact iff_of_true rooted.head rfl
    | succ i =>
      obtain ⟨t, below, rfl⟩ := List.mem_map.1 (List.mem_of_getElem? (l := p.tail.map Segment.record) found)
      exact iff_of_false (Bool.eq_false_iff.1 (rooted.tail t below)) (Nat.succ_ne_zero i)
  · obtain ⟨t, -, rfl⟩ := List.mem_map.1 mem
    exact t.intact_record

/-- The intact records are those of the paths whose root is in its place. -/
theorem intact_iff : r.Intact ↔ ∃ p : Path, p.Rooted ∧ p.record = r := by
  constructor
  · intro intact
    obtain ⟨_ | ⟨head, tail⟩⟩ := r
    · exact absurd rfl intact.nonempty
    -- the texts follow from the other parts, so a path can be made of those alone
    · have same : ((head :: tail).map SegmentRecord.segment).map Segment.record = head :: tail := by
        rw [List.map_map]
        exact (List.map_congr_left fun s mem => SegmentRecord.record_segment (intact.segments s mem)).trans
          (List.map_id _)
      refine ⟨⟨head.segment, tail.map SegmentRecord.segment⟩, ⟨(intact.isRoot_iff 0 head rfl).2 rfl, fun s mem => ?_⟩,
        Path.record_eq_of_segments same⟩
      obtain ⟨t, below, rfl⟩ := List.mem_map.1 mem
      obtain ⟨i, found⟩ := List.mem_iff_getElem?.1 below
      exact Bool.eq_false_iff.2 fun flag => Nat.succ_ne_zero i ((intact.isRoot_iff (i + 1) t found).1 flag)
  · rintro ⟨p, rooted, rfl⟩
    exact intact_record rooted

theorem intact_root : root.Intact :=
  intact_iff.2 ⟨.root, Path.rooted_root, Path.record_eq_of_segments (congrArg (List.cons · []) Segment.record_root)⟩

/-- What a text writes is intact. -/
theorem intact_of_parse {text : String} (read : parse text = .ok r) : r.Intact := by
  rw [Path.parse_record] at read
  cases parsed : Path.parse text with
  | error e => simp [parsed, Except.map] at read
  | ok p =>
    rw [parsed] at read
    cases read
    exact intact_record (Path.rooted_of_parse parsed)

/-- A call on an intact path gives an intact path. -/
theorem Intact.call (intact : r.Intact) {c : PathCall} (made : r.call c = .ok q) : q.Intact := by
  obtain ⟨p, rooted, rfl⟩ := intact_iff.1 intact
  rw [Path.call_record rooted] at made
  cases called : p.call c with
  | error e => simp [called, Except.map] at made
  | ok p' =>
    rw [called] at made
    cases made
    exact intact_record (rooted.call called)

/-! ## Paths after calls -/

/-- What a call in place leaves: its result, or the path as it was. -/
theorem run_perform (c : PathCall) (r : PathRecord) :
    (perform c).run r = match r.call c with
      | .ok q => .ok () q
      | .error e => .error e r := by
  have unfolded : (perform c).run r = EStateM.run (match r.call c with
      | .ok q => set q
      | .error e => throw e) r := rfl
  rw [unfolded]
  cases r.call c <;> rfl

/-- The paths that calls, one after another, make of the root or of what a text writes. -/
inductive Reachable : PathRecord → Prop
  | root : Reachable root
  | parse {text : String} {r : PathRecord} (read : parse text = .ok r) : Reachable r
  | perform {r q : PathRecord} (before : Reachable r) (c : PathCall) (done : (perform c).run r = .ok () q) : Reachable q

theorem call_of_perform {c : PathCall} (done : (perform c).run r = .ok () q) : r.call c = .ok q := by
  rw [run_perform] at done
  split at done
  · next made => cases done; exact made
  · cases done

theorem Reachable.intact (reachable : r.Reachable) : r.Intact := by
  induction reachable with
  | root => exact intact_root
  | parse read => exact intact_of_parse read
  | perform before c done ih => exact ih.call (call_of_perform done)

/-- The parts of a path agree after any calls, and a refused call leaves the path as it is. -/
theorem reachable_intact (reachable : r.Reachable) :
    r.Intact ∧ ∀ c e q, (perform c).run r = .error e q → q = r := by
  refine ⟨reachable.intact, fun c e q refused => ?_⟩
  rw [run_perform] at refused
  split at refused
  · cases refused
  · cases refused
    rfl

/-- The path `/rows<>/m{k}` is read and gets an index, but no key where there is a list. -/
theorem reachable_intact_rows :
    ∃ start r : PathRecord, parse "/rows<>/m\x7bk\x7d" = .ok start ∧
      (perform (.withVacantIndex 3)).run start = .ok () r ∧ r.Reachable ∧
      r.segments.map SegmentRecord.expression = ["", "rows<3>", "m\x7bk\x7d"] ∧ r.Intact ∧
      ∃ e, (perform (.withKeyAt 1 "a")).run r = .error e r := by
  let rows (index : Option Nat) : PathRecord :=
    ⟨[.root, .collection "rows" (.element .list) index none false, .collection "m" .entry none (some "k") false]⟩
  have read : parse "/rows<>/m\x7bk\x7d" = .ok (rows none) := by decide +kernel
  have filled : (perform (.withVacantIndex 3)).run (rows none) = .ok () (rows (some 3)) := by rfl
  have reachable : (rows (some 3)).Reachable := .perform (.parse read) _ filled
  obtain ⟨intact, kept⟩ := reachable_intact reachable
  obtain ⟨e, q, refused⟩ : ∃ e q, (perform (.withKeyAt 1 "a")).run (rows (some 3)) = .error e q := ⟨_, _, rfl⟩
  obtain rfl := kept _ e q refused
  exact ⟨_, _, read, filled, reachable, by decide +kernel, intact, e, refused⟩

end PathRecord

end FieldBinding
