import FieldBinding.Proofs.Path.WellFormed
import FieldBinding.Proofs.Reading.Addressing
import FieldBinding.Proofs.Reading.Untyped

/-!
# Paths whose wildcard is filled

The paths of a group are the path of the read with a place in the brackets of its wildcard.  Apart from these brackets
nothing changes, so a path that can be written but for its wildcard can be written once the wildcard is filled.

Main results:

* `Path.followed_withSlotAt` — the segments of such a path.
* `Path.WildcardAt.writable` — it can be written, and has the access of the place where the wildcard was.
-/

namespace FieldBinding

/-! ## Segments -/

/-- A segment with a place in its brackets has the name and the brackets that it had, and selects the place.  In the
brackets of a map an index would become a key. -/
theorem Segment.withSlot?_spec {s s' : Segment} {slot : Slot} (collection : s.isCollection = true)
    (keyed : s.selector.bracket? = some .entry → ∃ key, slot = .key key) (put : s.withSlot? slot = some s') :
    s'.name = s.name ∧ s'.isCollection = true ∧ s'.selector.slot? = some slot := by
  obtain ⟨name, selector, isRoot⟩ := s
  cases selector with
  | plain => cases collection
  | element kind index =>
    cases slot with
    | index n =>
      cases put
      exact ⟨rfl, rfl, rfl⟩
    | key key => cases put
  | entry other =>
    obtain ⟨key, rfl⟩ := keyed rfl
    cases put
    exact ⟨rfl, rfl, rfl⟩

namespace Path

/-- What a path needs to be written: it is one place, and below the root all segments have names. -/
structure Writable (p : Path) : Prop where
  wellFormed : p.WellFormed
  single : p.hasWildcard = false
  nonempty : p.followed ≠ []
  named : ∀ s ∈ p.tail, s.name ≠ ""

/-- The only wildcard of a path, with the segments in front of it and behind it. -/
structure WildcardAt (p : Path) (front : List Segment) (segment : Segment) (rest : List Segment) : Prop where
  followed : p.followed = front ++ segment :: rest
  front_single : ∀ s ∈ front, s.isWildcard = false
  wild : segment.isWildcard = true
  rest_single : ∀ s ∈ rest, s.isWildcard = false

/-- The accesses that lead to the collection under a wildcard. -/
def accessesTo (front : List Segment) (segment : Segment) : List Access :=
  front.flatMap Segment.accesses ++ segment.names.map .name

variable {p q : Path} {front rest : List Segment} {segment : Segment} {slot : Slot}

theorem WildcardAt.brackets (wildcard : p.WildcardAt front segment rest) : segment.isCollection = true :=
  (Bool.and_eq_true_iff.1 wildcard.wild).1

theorem WildcardAt.hasWildcard (wildcard : p.WildcardAt front segment rest) : p.hasWildcard = true :=
  List.any_eq_true.2 ⟨segment, p.followed_subset (by simp [wildcard.followed]), wildcard.wild⟩

/-- The position of the segment behind some that are followed. -/
def positionAfter (p : Path) (front : List Segment) : Nat :=
  (if p.head.isCollection then 0 else 1) + front.length

theorem segments_positionAfter (followed : p.followed = front ++ segment :: rest) :
    p.segments.take (p.positionAfter front) ++ segment :: rest = p.segments ∧
      p.segments[p.positionAfter front]? = some segment ∧
      p.segments.drop (p.positionAfter front + 1) = rest := by
  unfold Path.followed at followed
  by_cases bracketed : p.head.isCollection
  · rw [if_pos bracketed] at followed
    rw [positionAfter, if_pos bracketed, Nat.zero_add, followed]
    simp
  · rw [if_neg bracketed] at followed
    rw [positionAfter, if_neg bracketed, Nat.add_comm, segments, followed]
    simp

/-- A place in the brackets of a wildcard changes the wildcard only. -/
theorem followed_withSlotAt (followed : p.followed = front ++ segment :: rest)
    (put : p.withSlotAt (p.positionAfter front) slot = .ok q) :
    ∃ segment', segment.withSlot? slot = some segment' ∧ q.followed = front ++ segment' :: rest ∧
      q.segments = p.segments.take (p.positionAfter front) ++ segment' :: rest := by
  obtain ⟨-, here, behind⟩ := segments_positionAfter followed
  obtain ⟨segment', filled, taken, head⟩ := segments_withSlotAt here put
  have whole : q.segments = p.segments.take (p.positionAfter front) ++ segment' :: rest := by
    rw [← List.take_append_drop (p.positionAfter front + 1) q.segments, taken, drop_withSlotAt put, behind]
    simp
  refine ⟨segment', filled, ?_, whole⟩
  unfold Path.followed at followed ⊢
  rw [head]
  by_cases bracketed : p.head.isCollection
  · rw [if_pos bracketed] at followed ⊢
    rw [whole, positionAfter, if_pos bracketed, Nat.zero_add, followed, List.take_left]
  · rw [if_neg bracketed] at followed ⊢
    rw [positionAfter, if_neg bracketed, segments, segments, followed] at whole
    simpa [Nat.add_comm] using (List.cons.inj (by simpa [Nat.add_comm] using whole)).2

/-- With a place in the brackets of its only wildcard a path can be written, and leads through the place. -/
theorem WildcardAt.writable (wildcard : p.WildcardAt front segment rest) (wellFormed : p.WellFormed)
    (named : ∀ s ∈ p.tail, s.name ≠ "")
    (keyed : segment.selector.bracket? = some .entry → ∃ key, slot = .key key)
    (put : p.withSlotAt (p.positionAfter front) slot = .ok q) :
    q.Writable ∧
      q.accesses = accessesTo front segment ++ .slot slot :: rest.flatMap Segment.accesses := by
  have followed := wildcard.followed
  obtain ⟨segment', filled, followed', whole⟩ := followed_withSlotAt followed put
  have brackets := wildcard.brackets
  obtain ⟨name, brackets', selects⟩ := segment.withSlot?_spec brackets keyed filled
  have plain : segment'.isWildcard = false := by
    simp [Segment.isWildcard, Segment.isIndexed, selects]
  -- nothing but a place in brackets is different
  have forms : q.segments.map (fun s => (s.name, s.isCollection)) =
      p.segments.map fun s => (s.name, s.isCollection) := by
    have before := congrArg (List.map fun s => (s.name, s.isCollection)) (segments_positionAfter followed).1
    rw [whole, ← before]
    simp [name, brackets, brackets']
  obtain ⟨head, tail⟩ := List.cons.inj forms
  have below : ∀ s ∈ q.tail, ∃ t ∈ p.tail, t.name = s.name ∧ t.isCollection = s.isCollection := by
    intro s hs
    have form := List.mem_map_of_mem (f := fun s : Segment => (s.name, s.isCollection)) hs
    rw [tail] at form
    obtain ⟨t, ht, same⟩ := List.mem_map.1 form
    exact ⟨t, ht, Prod.mk.inj same⟩
  refine ⟨⟨⟨(Prod.mk.inj head).1.trans wellFormed.head_name, fun s hs => ?_⟩, ?_, ?_, fun s hs => ?_⟩, ?_⟩
  · obtain ⟨t, ht, name, brackets⟩ := below s hs
    intro unnamed
    exact brackets ▸ wellFormed.written t ht (name.trans unnamed)
  · have none : q.followed.countP Segment.isWildcard = 0 := by
      rw [followed', List.countP_eq_zero]
      simpa [or_imp, forall_and, plain] using ⟨wildcard.front_single, wildcard.rest_single⟩
    rw [countP_followed, List.countP_eq_zero] at none
    exact List.any_eq_false.2 none
  · simp [followed']
  · obtain ⟨t, ht, name, -⟩ := below s hs
    exact name ▸ named t ht
  · rw [accesses, followed', List.flatMap_append, List.flatMap_cons, Segment.accesses, selects,
      Segment.names, name, ← Segment.names]
    simp [accessesTo]

end Path

end FieldBinding
