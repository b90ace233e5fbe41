import FieldBinding.Proofs.Graph.Faces
import FieldBinding.Proofs.Writing.Planning

/-!
# Documents that realize a plan

The order in which the ways of a plan are prepared decides who makes a collection, how often an array is replaced, and
how far a list is filled up at a time.  None of this can be seen once all of them have been prepared.  The plan then
says of every place whether it is there: there is a collection at each joint, and null in front of each index and
nowhere else.

Main results:

* `Writer.realizes_ofWays` — a document in which all ways are prepared realizes their plan.
* `Writer.Realizes.sameFaces` — documents that realize one plan have the same faces in the same places.
-/

namespace FieldBinding

open FieldBinding.Graph

variable {g g' : Graph} {root root' v : Value} {plan : Plan} {j : Joint}

theorem Joint.type_isCollection (j : Joint) : j.type.isCollection := by
  cases j <;> rfl

theorem Joint.eq_sequence_of_tagOf {kind : SequenceKind} {n : Nat} (type : g.tagOf v = (item kind n).type) :
    ∃ id, v = .sequence kind id := by
  cases v with
  | sequence other id => exact ⟨id, by rw [(TypeTag.sequence.inj type).1]⟩
  | _ => cases type

/-- The last joint of a path that can be written is that of the place where its value is stored. -/
theorem Path.Writable.joints_eq {p : Path} (writable : p.Writable) :
    ∃ front j, p.joints = front ++ [j] ∧ front.map Joint.label = p.holderRoute ∧
      ∀ kind n, j = .item kind n → p.last.selector.index? = some n := by
  obtain ⟨front, a, accesses, holder, -, place⟩ := writable.accesses_eq
  rw [← access_joints] at accesses
  obtain ⟨front, rest, joints, rfl, single⟩ := List.map_eq_append_iff.1 accesses
  obtain ⟨j, rfl, rfl⟩ := List.map_eq_singleton_iff.1 single
  refine ⟨front, j, joints, ?_, ?_⟩
  · rw [← holder, List.map_map]
    rfl
  · rintro kind n rfl
    exact Writer.index?_eq_some (place _ rfl)

namespace Writer

/-- A document in which everything has been made that is planned. -/
structure Realizes (plan : Plan) (g : Graph) (root : Value) : Prop where
  planned : Planned plan g root
  /-- No joint is missing. -/
  made : ∀ σ j, plan σ j → ∃ v, g.along root σ = some v ∧ v ≠ .null
  /-- Every index is addressable. -/
  long : ∀ σ kind n, plan σ (.item kind n) → (g.along root (σ ++ [Numeral.text n])).isSome

namespace Realizes

variable (realizes : Realizes plan g root) {σ : List String}

include realizes

/-- Where no joint is planned there is a place only in front of an index. -/
theorem isSome_iff (consistent : plan.Consistent) (free : ¬∃ j, plan σ j) :
    (g.along root σ).isSome ↔ σ = [] ∨ plan.UpTo σ := by
  constructor
  · intro there
    obtain ⟨v, arrives⟩ := Option.isSome_iff_exists.1 there
    exact ((realizes.planned σ v arrives).resolve_right fun ⟨j, here, _⟩ => free ⟨j, here⟩).2
  · rintro (rfl | ⟨τ, kind, n, i, here, le, rfl⟩)
    · rfl
    -- the sequence at the joint is long enough for the index, and so for all in front of it
    obtain ⟨v, arrives, value⟩ := realizes.made τ _ here
    obtain ⟨id, rfl⟩ := Joint.eq_sequence_of_tagOf (realizes.planned.tagOf_eq consistent here arrives value)
    have long := realizes.long τ kind n here
    rw [← addressable_iff arrives] at long ⊢
    exact Nat.lt_of_le_of_lt le long

theorem eq_null (free : ¬∃ j, plan σ j) (arrives : g.along root σ = some v) : v = .null :=
  ((realizes.planned σ v arrives).resolve_right fun ⟨j, here, _⟩ => free ⟨j, here⟩).1

/-- Documents that realize one plan have the same faces in the same places. -/
theorem sameFaces (consistent : plan.Consistent) (realizes' : Realizes plan g' root') :
    SameFaces g root g' root' := by
  intro σ
  by_cases free : ∃ j, plan σ j
  · obtain ⟨j, here⟩ := free
    obtain ⟨v, arrives, value⟩ := realizes.made σ j here
    obtain ⟨v', arrives', value'⟩ := realizes'.made σ j here
    rw [arrives, arrives', Option.map_some, Option.map_some,
      face_of_tagOf j.type_isCollection (realizes.planned.tagOf_eq consistent here arrives value)
        (realizes'.planned.tagOf_eq consistent here arrives' value')]
  · have there := (realizes.isSome_iff consistent free).trans (realizes'.isSome_iff consistent free).symm
    cases arrives : g.along root σ with
    | none =>
      cases arrives' : g'.along root' σ with
      | none => rfl
      | some v' => simp [arrives, arrives'] at there
    | some v =>
      cases arrives' : g'.along root' σ with
      | none => simp [arrives, arrives'] at there
      | some v' =>
        rw [realizes.eq_null free arrives, realizes'.eq_null free arrives']
        rfl

end Realizes

/-- On the way to a value that stands ready nothing is missing. -/
theorem Standing.made {p : Path} (standing : Standing g root p) (writable : p.Writable) {front back : List Joint}
    (way : p.joints = front ++ j :: back) : ∃ v, g.along root (front.map Joint.label) = some v ∧ v ≠ .null := by
  obtain ⟨h, arrives, value, -⟩ := standing
  obtain ⟨before, last, joints, holder, -⟩ := writable.joints_eq
  rw [← holder] at arrives
  rcases List.eq_nil_or_concat back with rfl | ⟨back, i, rfl⟩
  · obtain ⟨rfl, -⟩ := List.append_inj' (way.symm.trans joints) rfl
    exact ⟨h, arrives, value⟩
  · rw [List.concat_eq_append, ← List.cons_append, ← List.append_assoc] at way
    obtain ⟨rfl, -⟩ := List.append_inj' (way.symm.trans joints) rfl
    rw [List.map_append, List.map_cons, along_append, Option.bind_eq_some_iff] at arrives
    obtain ⟨v, arrives, further⟩ := arrives
    refine ⟨v, arrives, ?_⟩
    rintro rfl
    cases further

/-- So is no index on it. -/
theorem Standing.long {p : Path} (standing : Standing g root p) (writable : p.Writable)
    (planned : Planned plan g root) (consistent : plan.Consistent) {front back : List Joint} {kind : SequenceKind}
    {n : Nat} (way : p.joints = front ++ .item kind n :: back) (here : plan (front.map Joint.label) (.item kind n)) :
    (g.along root (front.map Joint.label ++ [Numeral.text n])).isSome := by
  obtain ⟨h, arrives, value, addressable⟩ := standing
  obtain ⟨before, last, joints, holder, index⟩ := writable.joints_eq
  rw [← holder] at arrives
  rcases List.eq_nil_or_concat back with rfl | ⟨back, i, rfl⟩
  · obtain ⟨rfl, same⟩ := List.append_inj' (way.symm.trans joints) rfl
    obtain ⟨id, rfl⟩ := Joint.eq_sequence_of_tagOf (planned.tagOf_eq consistent here arrives value)
    rw [← addressable_iff arrives]
    exact addressable n (index kind n (List.cons.inj same).1.symm) kind id rfl
  · rw [List.concat_eq_append, ← List.cons_append, ← List.append_assoc] at way
    obtain ⟨rfl, -⟩ := List.append_inj' (way.symm.trans joints) rfl
    rw [List.map_append, List.map_cons, List.append_cons, along_append, Option.bind_eq_some_iff] at arrives
    obtain ⟨v, arrives, -⟩ := arrives
    exact Option.isSome_iff_exists.2 ⟨v, arrives⟩

/-- A document in which all ways are prepared realizes their plan. -/
theorem realizes_ofWays {paths : List Path} (writable : ∀ p ∈ paths, p.Writable)
    (consistent : (Plan.ofWays (paths.map Path.joints)).Consistent)
    (planned : Planned (.ofWays (paths.map Path.joints)) g root) (standing : ∀ p ∈ paths, Standing g root p) :
    Realizes (.ofWays (paths.map Path.joints)) g root where
  planned := planned
  made := by
    rintro _ j ⟨_, mem, front, back, way, rfl⟩
    obtain ⟨p, hp, rfl⟩ := List.mem_map.1 mem
    exact (standing p hp).made (writable p hp) way
  long := by
    rintro _ kind n here
    obtain ⟨_, mem, front, back, way, rfl⟩ := id here
    obtain ⟨p, hp, rfl⟩ := List.mem_map.1 mem
    exact (standing p hp).long (writable p hp) planned consistent way here

end Writer

end FieldBinding
