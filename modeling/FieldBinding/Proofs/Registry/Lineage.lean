import Mathlib
import FieldBinding.Registry.Accessor

/-!
# The order of a lineage

A type may be reached from another over several ways: an `Ascent` says which of the listed ancestors to take at
each type on the way up.  Of two ways the *sooner* one is shorter or, if both are equally long, takes the
ancestor that is listed first where they part.

The lineage lists every registered type that can be reached, each by its soonest way, sooner ways first.  So a
type stands in front of another that it derives from if it is reached sooner.  That is not always so: the other
type may also be an ancestor of someone nearer, and then it comes first and hides what the derived type declares.

Main results:

* `Registry.lineage_sorted` — the lineage is the list of the soonest ways, in their order.
* `Registry.lineage_derived_first` — when a type stands in front of a type that it derives from, and which
  accessors and members are found then.
-/

namespace FieldBinding

/-! ## Ways -/

/-- One way up is taken before another: it is shorter, or it is as long and takes the ancestor that is listed
first where the two part. -/
def Sooner : List Nat → List Nat → Prop :=
  List.Shortlex (· < ·)

namespace Sooner

variable {is js ks : List Nat}

theorem trans (h : Sooner is js) (h' : Sooner js ks) : Sooner is ks := by
  rcases List.shortlex_def.1 h with shorter | ⟨same, lex⟩
  · rcases List.shortlex_def.1 h' with shorter' | ⟨same', -⟩ <;> exact .of_length_lt (by omega)
  · rcases List.shortlex_def.1 h' with shorter' | ⟨same', lex'⟩
    · exact .of_length_lt (by omega)
    · exact .of_lex (same.trans same') (List.lex_trans lt_trans lex lex')

theorem asymm (h : Sooner is js) : ¬ Sooner js is :=
  List.Shortlex.asymm.asymm is js h

theorem irrefl (is : List Nat) : ¬ Sooner is is :=
  fun h => h.asymm h

theorem eq_of_not (h : ¬ Sooner is js) (h' : ¬ Sooner js is) : is = js :=
  List.Shortlex.trichotomous.trichotomous is js h h'

theorem length_le (h : Sooner is js) : is.length ≤ js.length := by
  rcases List.shortlex_def.1 h with shorter | ⟨same, -⟩ <;> omega

theorem lex_append (lex : List.Lex (· < ·) is js) (same : is.length = js.length) (rest rest' : List Nat) :
    List.Lex (· < ·) (is ++ rest) (js ++ rest') := by
  induction lex with
  | nil => simp at same
  | cons _ ih => exact .cons (ih (by simpa using same))
  | rel less => exact .rel less

/-- Ways keep their order when they go on, if the second goes on at least as long. -/
theorem append (h : Sooner is js) {rest rest' : List Nat} (le : rest.length ≤ rest'.length) :
    Sooner (is ++ rest) (js ++ rest') := by
  rcases List.shortlex_def.1 h with shorter | ⟨same, lex⟩
  · exact .of_length_lt (by simp only [List.length_append]; omega)
  rcases Nat.lt_or_eq_of_le le with less | equal
  · exact .of_length_lt (by simp only [List.length_append]; omega)
  · exact .of_lex (by simp only [List.length_append]; omega) (lex_append lex same rest rest')

/-- A part of a way is taken before the whole. -/
theorem of_longer (is : List Nat) (i : Nat) : Sooner is (is ++ [i]) :=
  .of_length_lt (by simp)

end Sooner

/-- The getter that a type itself declares for a field. -/
def Descriptor.getter? (d : Descriptor) (field : String) : Option Getter :=
  (d.getters.get? (accessorName "get" field)).or (d.getters.get? (accessorName "is" field))

namespace Registry

/-- One type lists another among its ancestors. -/
def Lists (r : Registry) (name ancestor : String) : Prop :=
  ∃ d, r.get? name = some d ∧ ancestor ∈ d.ancestors

/-- One type derives from another, over one or more listed ancestors. -/
def Derives (r : Registry) : String → String → Prop :=
  Relation.TransGen r.Lists

/-- A way from one type up to another: the positions of the ancestors that are taken. -/
inductive Ascent (r : Registry) : String → List Nat → String → Prop
  | here (name : String) : Ascent r name [] name
  | up {name next last : String} {d : Descriptor} {i : Nat} {is : List Nat} (known : r.get? name = some d)
      (listed : d.ancestors[i]? = some next) (rest : Ascent r next is last) : Ascent r name (i :: is) last

variable {r : Registry} {name next last : String} {is js : List Nat} {d : Descriptor}

namespace Ascent

theorem end_unique (h : r.Ascent name is next) (h' : r.Ascent name is last) : next = last := by
  induction h with
  | here => cases h'; rfl
  | up known listed _ ih =>
    cases h' with
    | up known' listed' rest' =>
      obtain rfl := Option.some.inj (known.symm.trans known')
      obtain rfl := Option.some.inj (listed.symm.trans listed')
      exact ih rest'

theorem append (h : r.Ascent name is next) (h' : r.Ascent next js last) : r.Ascent name (is ++ js) last := by
  induction h with
  | here => exact h'
  | up known listed _ ih => exact .up known listed (ih h')

theorem split (h : r.Ascent name (is ++ js) last) :
    ∃ next, r.Ascent name is next ∧ r.Ascent next js last := by
  induction is generalizing name with
  | nil => exact ⟨name, .here name, h⟩
  | cons i is ih =>
    cases h with
    | up known listed rest =>
      obtain ⟨next, front, back⟩ := ih rest
      exact ⟨next, .up known listed front, back⟩

theorem single (known : r.get? name = some d) {i : Nat} (listed : d.ancestors[i]? = some next) :
    r.Ascent name [i] next :=
  .up known listed (.here next)

end Ascent

/-- A type derives from those that a way leads to, except for itself over the way that leads nowhere. -/
theorem derives_iff : r.Derives name last ↔ ∃ is, is ≠ [] ∧ r.Ascent name is last := by
  constructor
  · intro h
    induction h with
    | single listed =>
      obtain ⟨d, known, mem⟩ := listed
      obtain ⟨i, listed⟩ := List.mem_iff_getElem?.1 mem
      exact ⟨[i], by simp, .single known listed⟩
    | tail _ listed ih =>
      obtain ⟨is, -, front⟩ := ih
      obtain ⟨d, known, mem⟩ := listed
      obtain ⟨i, listed⟩ := List.mem_iff_getElem?.1 mem
      exact ⟨is ++ [i], by simp, front.append (.single known listed)⟩
  · rintro ⟨is, nonempty, h⟩
    induction h with
    | here => exact absurd rfl nonempty
    | @up name next last d i is known listed rest ih =>
      have first : r.Lists name next := ⟨d, known, List.mem_of_getElem? listed⟩
      by_cases stop : is = []
      · subst stop
        cases rest
        exact .single first
      · exact .head first (ih stop)

/-- The soonest way from one type to another. -/
structure Soonest (r : Registry) (name : String) (is : List Nat) (last : String) : Prop where
  ascent : r.Ascent name is last
  least : ∀ js, r.Ascent name js last → ¬ Sooner js is

/-- Where there is a way there is a soonest one. -/
theorem Ascent.exists_soonest (h : r.Ascent name is last) : ∃ js, r.Soonest name js last := by
  obtain ⟨js, ascent, least⟩ := (List.Shortlex.wf (r := (· < ·)) Nat.lt_wfRel.wf).has_min
    {js | r.Ascent name js last} ⟨is, h⟩
  exact ⟨js, ascent, least⟩

theorem Soonest.unique (h : r.Soonest name is last) (h' : r.Soonest name js last) : is = js :=
  Sooner.eq_of_not (h'.least is h.ascent) (h.least js h'.ascent)

/-- A soonest way consists of soonest ways. -/
theorem Soonest.front (h : r.Soonest name (is ++ js) last) (front : r.Ascent name is next) :
    r.Soonest name is next := by
  obtain ⟨next', front', back⟩ := h.ascent.split
  obtain rfl := front.end_unique front'
  exact ⟨front, fun ks other sooner => h.least (ks ++ js) (other.append back) (sooner.append le_rfl)⟩

/-! ## The walk -/

/-- The ancestors of a type, each with the way to the type and one step more. -/
def steps (is : List Nat) (ancestors : List String) : List (List Nat × String) :=
  ancestors.zipIdx.map fun (ancestor, i) => (is ++ [i], ancestor)

theorem names_steps (is : List Nat) (ancestors : List String) : (steps is ancestors).map (·.2) = ancestors := by
  simp [steps, Function.comp_def, List.zipIdx_map_fst]

theorem mem_steps_iff {ancestors : List String} {q : List Nat × String} :
    q ∈ steps is ancestors ↔ ∃ i, ancestors[i]? = some q.2 ∧ q.1 = is ++ [i] := by
  simp only [steps, List.mem_map, List.mem_zipIdx_iff_getElem?, Prod.exists]
  constructor
  · rintro ⟨ancestor, i, listed, rfl⟩
    exact ⟨i, listed, rfl⟩
  · rintro ⟨i, listed, way⟩
    exact ⟨q.2, i, listed, Prod.ext way.symm rfl⟩

/-- What holds while the ancestors of a type are walked: `met` are the names that have been met, and the queue has
the names that come next, each with a way that leads to it. -/
structure Frontier (r : Registry) (name : String) (met : List String) (queue : List (List Nat × String)) : Prop where
  ascent : ∀ q ∈ queue, r.Ascent name q.1 q.2
  sorted : queue.Pairwise fun p q => Sooner p.1 q.1
  /-- No way in the queue is taken after one that leads on from the queue. -/
  level : ∀ p ∈ queue, ∀ q ∈ queue, ∀ i, Sooner p.1 (q.1 ++ [i])
  /-- What has been met was reached sooner than what comes next. -/
  before : ∀ known ∈ met, ∃ is, r.Ascent name is known ∧ ∀ q ∈ queue, Sooner is q.1
  /-- The soonest way to a type that has not been met goes on from the queue. -/
  ahead : ∀ is last, r.Soonest name is last → last ∉ met → ∃ q ∈ queue, ∃ rest, is = q.1 ++ rest

namespace Frontier

variable {met : List String} {queue : List (List Nat × String)}

/-- At the start nothing has been met, and the type itself comes next. -/
theorem start (r : Registry) (name : String) : r.Frontier name [] [([], name)] where
  ascent := by simpa using Ascent.here name
  sorted := List.pairwise_singleton _ _
  level := by simpa using fun i => Sooner.of_longer [] i
  before := by simp
  ahead := by simp

variable (front : r.Frontier name met ((is, next) :: queue))

include front

/-- A type that comes next and has not been met is reached by its soonest way. -/
theorem soonest (new : next ∉ met) : r.Soonest name is next := by
  have ascent := front.ascent _ List.mem_cons_self
  obtain ⟨js, soonest⟩ := ascent.exists_soonest
  obtain ⟨q, mem, rest, rfl⟩ := front.ahead js next soonest new
  -- the soonest way goes on from the queue, so it is not sooner than the head
  have late : q.1 = is ∨ Sooner is q.1 := by
    rcases List.mem_cons.1 mem with rfl | mem
    · exact .inl rfl
    · exact .inr (List.rel_of_pairwise_cons front.sorted mem)
  have first : Sooner is (q.1 ++ rest) → False := soonest.least is ascent
  rcases late with rfl | late
  · obtain rfl | ⟨i, more, rfl⟩ := rest.eq_nil_or_concat'
    · simpa using soonest
    · exact absurd (.of_length_lt (by simp)) first
  · exact absurd (late.append_right rest) first

/-- A type that has been met is passed over. -/
theorem skip (known : next ∈ met) : r.Frontier name met queue where
  ascent q mem := front.ascent q (List.mem_cons_of_mem _ mem)
  sorted := front.sorted.of_cons
  level p hp q hq := front.level p (List.mem_cons_of_mem _ hp) q (List.mem_cons_of_mem _ hq)
  before old mem := by
    obtain ⟨js, ascent, sooner⟩ := front.before old mem
    exact ⟨js, ascent, fun q hq => sooner q (List.mem_cons_of_mem _ hq)⟩
  ahead js last soonest new := by
    obtain ⟨q, mem, rest, rfl⟩ := front.ahead js last soonest new
    rcases List.mem_cons.1 mem with rfl | mem
    · -- there is a sooner way to the type, so no soonest way leads over this one
      obtain ⟨ks, ascent, sooner⟩ := front.before next known
      have here := soonest.front (front.ascent _ List.mem_cons_self)
      exact absurd (sooner _ List.mem_cons_self) (here.least ks ascent)
    · exact ⟨q, mem, rest, rfl⟩

/-- What is met is reached sooner than what comes next, also when it has just been met. -/
theorem before_cons (more : List (List Nat × String)) (later : ∀ q ∈ more, Sooner is q.1)
    {old : String} (mem : old ∈ next :: met) :
    ∃ js, r.Ascent name js old ∧ ∀ q ∈ queue ++ more, Sooner js q.1 := by
  rcases List.mem_cons.1 mem with rfl | mem
  · refine ⟨is, front.ascent _ List.mem_cons_self, fun q hq => ?_⟩
    rcases List.mem_append.1 hq with hq | hq
    · exact List.rel_of_pairwise_cons front.sorted hq
    · exact later q hq
  · obtain ⟨js, ascent, sooner⟩ := front.before old mem
    refine ⟨js, ascent, fun q hq => ?_⟩
    rcases List.mem_append.1 hq with hq | hq
    · exact sooner q (List.mem_cons_of_mem _ hq)
    · exact (sooner _ List.mem_cons_self).trans (later q hq)

/-- No way leads on from a type that is not registered. -/
theorem pass (unknown : r.get? next = none) : r.Frontier name (next :: met) queue where
  ascent q mem := front.ascent q (List.mem_cons_of_mem _ mem)
  sorted := front.sorted.of_cons
  level p hp q hq := front.level p (List.mem_cons_of_mem _ hp) q (List.mem_cons_of_mem _ hq)
  before old mem := by simpa using front.before_cons [] (by simp) mem
  ahead js last soonest new := by
    rw [List.mem_cons, not_or] at new
    obtain ⟨q, mem, rest, rfl⟩ := front.ahead js last soonest new.2
    rcases List.mem_cons.1 mem with rfl | mem
    · obtain ⟨next', here, back⟩ := soonest.ascent.split
      obtain rfl := here.end_unique (front.ascent _ List.mem_cons_self)
      cases back with
      | here => exact absurd rfl new.1
      | up known => simp [unknown] at known
    · exact ⟨q, mem, rest, rfl⟩

/-- The ancestors of a type that is registered are put behind the queue. -/
theorem expand (known : r.get? next = some d) :
    r.Frontier name (next :: met) (queue ++ steps is d.ancestors) where
  ascent q mem := by
    rcases List.mem_append.1 mem with mem | mem
    · exact front.ascent q (List.mem_cons_of_mem _ mem)
    · obtain ⟨i, listed, way⟩ := mem_steps_iff.1 mem
      rw [way]
      exact (front.ascent _ List.mem_cons_self).append (.single known listed)
  sorted := by
    refine List.pairwise_append.2 ⟨front.sorted.of_cons, ?_, fun p hp q hq => ?_⟩
    · rw [steps, List.pairwise_map, List.pairwise_iff_getElem]
      intro i j hi hj less
      exact .of_lex (by simp) (List.Lex.append_left _ (.rel (by simpa using less)) is)
    · obtain ⟨i, -, way⟩ := mem_steps_iff.1 hq
      rw [way]
      exact front.level p (List.mem_cons_of_mem _ hp) _ List.mem_cons_self i
  level p hp q hq i := by
    rcases List.mem_append.1 hp with hp | hp <;> rcases List.mem_append.1 hq with hq | hq
    · exact front.level p (List.mem_cons_of_mem _ hp) q (List.mem_cons_of_mem _ hq) i
    · obtain ⟨j, -, way⟩ := mem_steps_iff.1 hq
      rw [way]
      exact (front.level p (List.mem_cons_of_mem _ hp) _ List.mem_cons_self j).trans (.of_longer _ i)
    · obtain ⟨j, -, way⟩ := mem_steps_iff.1 hp
      rw [way]
      exact (List.rel_of_pairwise_cons front.sorted hq).append le_rfl
    · obtain ⟨j, -, way⟩ := mem_steps_iff.1 hp
      obtain ⟨k, -, way'⟩ := mem_steps_iff.1 hq
      rw [way, way']
      exact .of_length_lt (by simp)
  before old mem := by
    refine front.before_cons _ (fun q hq => ?_) mem
    obtain ⟨i, -, way⟩ := mem_steps_iff.1 hq
    rw [way]
    exact .of_longer is i
  ahead js last soonest new := by
    rw [List.mem_cons, not_or] at new
    obtain ⟨q, mem, rest, rfl⟩ := front.ahead js last soonest new.2
    rcases List.mem_cons.1 mem with rfl | mem
    · obtain ⟨next', here, back⟩ := soonest.ascent.split
      obtain rfl := here.end_unique (front.ascent _ List.mem_cons_self)
      cases back with
      | here => exact absurd rfl new.1
      | @up _ ancestor _ d' i rest known' listed _ =>
        obtain rfl := Option.some.inj (known.symm.trans known')
        exact ⟨(is ++ [i], ancestor), List.mem_append_right _ (mem_steps_iff.2 ⟨i, listed, rfl⟩), rest, by simp⟩
    · exact ⟨q, List.mem_append_left _ mem, rest, rfl⟩

end Frontier

/-- What the walk from some frontier lists: the types that have not been met, each with its soonest way. -/
structure Listing (r : Registry) (name : String) (met : List String) (queue : List (List Nat × String))
    (found : List (List Nat × Descriptor)) : Prop where
  soonest : ∀ f ∈ found, ∃ last, last ∉ met ∧ r.Soonest name f.1 last ∧ r.get? last = some f.2
  sorted : found.Pairwise fun f f' => Sooner f.1 f'.1
  after : ∀ is, (∀ q ∈ queue, Sooner is q.1) → ∀ f ∈ found, Sooner is f.1
  complete : ∀ is last d, r.Soonest name is last → r.get? last = some d → last ∉ met → (is, d) ∈ found

namespace Listing

variable {met : List String} {queue : List (List Nat × String)} {found : List (List Nat × Descriptor)}

theorem skip (listing : r.Listing name met queue found) : r.Listing name met ((is, next) :: queue) found where
  soonest := listing.soonest
  sorted := listing.sorted
  after js sooner := listing.after js fun q hq => sooner q (List.mem_cons_of_mem _ hq)
  complete := listing.complete

theorem pass (unknown : r.get? next = none) (listing : r.Listing name (next :: met) queue found) :
    r.Listing name met ((is, next) :: queue) found where
  soonest f mem := by
    obtain ⟨last, fresh, soonest⟩ := listing.soonest f mem
    exact ⟨last, fun old => fresh (List.mem_cons_of_mem _ old), soonest⟩
  sorted := listing.sorted
  after js sooner := listing.after js fun q hq => sooner q (List.mem_cons_of_mem _ hq)
  complete js last d soonest known fresh := by
    refine listing.complete js last d soonest known fun old => ?_
    rcases List.mem_cons.1 old with rfl | old
    · simp [unknown] at known
    · exact fresh old

theorem expand (front : r.Frontier name met ((is, next) :: queue)) (new : next ∉ met) (known : r.get? next = some d)
    (listing : r.Listing name (next :: met) (queue ++ steps is d.ancestors) found) :
    r.Listing name met ((is, next) :: queue) ((is, d) :: found) := by
  have here := front.soonest new
  -- whatever is found later is behind the queue or behind the type itself
  have later : ∀ f ∈ found, Sooner is f.1 := by
    refine listing.after is fun q hq => ?_
    rcases List.mem_append.1 hq with hq | hq
    · exact List.rel_of_pairwise_cons front.sorted hq
    · obtain ⟨i, -, way⟩ := mem_steps_iff.1 hq
      rw [way]
      exact .of_longer is i
  refine ⟨fun f mem => ?_, listing.sorted.cons later, fun js sooner f mem => ?_,
    fun js last e soonest known' fresh => ?_⟩
  · rcases List.mem_cons.1 mem with rfl | mem
    · exact ⟨next, new, here, known⟩
    · obtain ⟨last, fresh, soonest⟩ := listing.soonest f mem
      exact ⟨last, fun old => fresh (List.mem_cons_of_mem _ old), soonest⟩
  · have first : Sooner js is := sooner _ List.mem_cons_self
    rcases List.mem_cons.1 mem with rfl | mem
    · exact first
    · exact first.trans (later f mem)
  · by_cases same : last = next
    · subst same
      obtain rfl := soonest.unique here
      obtain rfl := Option.some.inj (known.symm.trans known')
      exact List.mem_cons_self
    · exact List.mem_cons_of_mem _ (listing.complete js last e soonest known' (by simp [same, fresh]))

end Listing

theorem walk_listing {met : List String} {queue : List (List Nat × String)} (front : r.Frontier name met queue) :
    ∃ found, r.walk met (queue.map (·.2)) = found.map (·.2) ∧ r.Listing name met queue found := by
  generalize names : queue.map (·.2) = waiting
  induction met, waiting using walk.induct r generalizing queue with
  | case1 met =>
    obtain rfl := List.map_eq_nil_iff.1 names
    refine ⟨[], walk_nil r met, by simp, List.Pairwise.nil, by simp, fun is last d soonest _ new => ?_⟩
    obtain ⟨q, mem, -⟩ := front.ahead is last soonest new
    cases mem
  | case2 met next waiting known ih =>
    obtain ⟨⟨is, next'⟩, queue, rfl, rfl, rfl⟩ := List.map_eq_cons_iff.1 names
    obtain ⟨found, eq, listing⟩ := ih (front.skip known) rfl
    exact ⟨found, (walk_met known).trans eq, listing.skip⟩
  | case3 met next waiting new unknown ih =>
    obtain ⟨⟨is, next'⟩, queue, rfl, rfl, rfl⟩ := List.map_eq_cons_iff.1 names
    obtain ⟨found, eq, listing⟩ := ih (front.pass unknown) rfl
    exact ⟨found, (walk_unknown new unknown).trans eq, listing.pass unknown⟩
  | case4 met next waiting new d known ih =>
    obtain ⟨⟨is, next'⟩, queue, rfl, rfl, rfl⟩ := List.map_eq_cons_iff.1 names
    obtain ⟨found, eq, listing⟩ := ih (front.expand known) (by simp [names_steps])
    exact ⟨(is, d) :: found, (walk_known new known).trans (congrArg (d :: ·) eq), listing.expand front new known⟩

/-- The lineage of a type lists the registered types that can be reached, each by its soonest way, in the order of
these ways. -/
theorem lineage_sorted (r : Registry) (name : String) :
    ∃ found : List (List Nat × Descriptor), r.lineage name = found.map (·.2) ∧
      found.Pairwise (fun f f' => Sooner f.1 f'.1) ∧
      ∀ is d, (is, d) ∈ found ↔ ∃ last, r.Soonest name is last ∧ r.get? last = some d := by
  obtain ⟨found, eq, listing⟩ := walk_listing (Frontier.start r name)
  refine ⟨found, eq, listing.sorted, fun is d => ⟨fun mem => ?_, fun ⟨last, soonest, known⟩ => ?_⟩⟩
  · obtain ⟨last, -, soonest, known⟩ := listing.soonest _ mem
    exact ⟨last, soonest, known⟩
  · exact listing.complete is last d soonest known (by simp)

/-! ## Who comes first -/

theorem pair_sublist_of_mem {α : Type} {l : List α} {a b : α} (ha : a ∈ l) (hb : b ∈ l) (ne : a ≠ b) :
    [a, b].Sublist l ∨ [b, a].Sublist l := by
  induction l with
  | nil => cases ha
  | cons c l ih =>
    rcases List.mem_cons.1 ha with rfl | ha' <;> rcases List.mem_cons.1 hb with rfl | hb'
    · exact absurd rfl ne
    · exact .inl ((List.singleton_sublist.2 hb').cons_cons a)
    · exact .inr ((List.singleton_sublist.2 ha').cons_cons b)
    · exact (ih ha' hb').imp (.cons c) (.cons c)

/-- A search ends with the given element at the latest, if that is a hit. -/
theorem exists_findSome?_of_mem {α β : Type} {f : α → Option β} {l : List α} {a : α} (mem : a ∈ l)
    (hit : (f a).isSome) : ∃ x, (x = a ∨ [x, a].Sublist l) ∧ (f x).isSome ∧ l.findSome? f = f x := by
  induction l with
  | nil => cases mem
  | cons c l ih =>
    by_cases first : (f c).isSome
    · refine ⟨c, ?_, first, ?_⟩
      · rcases List.mem_cons.1 mem with rfl | mem
        · exact .inl rfl
        · exact .inr ((List.singleton_sublist.2 mem).cons_cons c)
      · obtain ⟨b, found⟩ := Option.isSome_iff_exists.1 first
        rw [List.findSome?_cons_of_isSome first]
    · rcases List.mem_cons.1 mem with rfl | mem
      · exact absurd hit first
      · obtain ⟨x, place, hits, eq⟩ := ih mem
        refine ⟨x, place.imp id (.cons c), hits, ?_⟩
        rw [List.findSome?_cons_of_isNone (by simpa using first), eq]

section Order

variable (named : ∀ name d, r.get? name = some d → d.name = name)

include named

/-- A type is listed once. -/
theorem lineage_nodup (name : String) : (r.lineage name).Nodup := by
  obtain ⟨found, eq, sorted, mem_iff⟩ := r.lineage_sorted name
  rw [eq, List.Nodup, List.pairwise_map]
  refine sorted.imp_of_mem fun {f f'} mem mem' sooner same => ?_
  obtain ⟨last, soonest, known⟩ := (mem_iff f.1 f.2).1 mem
  obtain ⟨last', soonest', known'⟩ := (mem_iff f'.1 f'.2).1 mem'
  obtain rfl : last = last' := by rw [← named last _ known, ← named last' _ known', same]
  exact Sooner.irrefl f.1 (by rwa [← soonest.unique soonest'] at sooner)

theorem mem_lineage (mem : d ∈ r.lineage name) : ∃ is, r.Soonest name is d.name ∧ r.get? d.name = some d := by
  obtain ⟨found, eq, -, mem_iff⟩ := r.lineage_sorted name
  rw [eq] at mem
  obtain ⟨⟨is, d⟩, listed, rfl⟩ := List.mem_map.1 mem
  obtain ⟨last, soonest, known⟩ := (mem_iff is d).1 listed
  obtain rfl := named last d known
  exact ⟨is, soonest, known⟩

/-- Of two types of a lineage the one that is reached sooner comes first. -/
theorem sublist_lineage_iff {e : Descriptor} (hd : r.get? d.name = some d) (he : r.get? e.name = some e)
    (soonest : r.Soonest name is d.name) (soonest' : r.Soonest name js e.name) :
    [d, e].Sublist (r.lineage name) ↔ Sooner is js := by
  obtain ⟨found, eq, sorted, mem_iff⟩ := r.lineage_sorted name
  rw [eq]
  constructor
  · intro sub
    obtain ⟨pair, ways, values⟩ := List.sublist_map_iff.1 sub
    obtain ⟨⟨is', d'⟩, tail, rfl, rfl, values'⟩ := List.map_eq_cons_iff.1 values.symm
    obtain ⟨⟨js', e'⟩, tail, rfl, rfl, -⟩ := List.map_eq_cons_iff.1 values'
    have order := sorted.sublist ways
    obtain ⟨last, way, known⟩ := (mem_iff is' d').1 (ways.subset (by simp))
    obtain ⟨last', way', known'⟩ := (mem_iff js' e').1 (ways.subset (by simp))
    obtain rfl := named last d' known
    obtain rfl := named last' e' known'
    obtain rfl := soonest.unique way
    obtain rfl := soonest'.unique way'
    exact List.rel_of_pairwise_cons order (List.mem_cons_self (a := (js, e')))
  · intro sooner
    have mem := (mem_iff is d).2 ⟨_, soonest, hd⟩
    have mem' := (mem_iff js e).2 ⟨_, soonest', he⟩
    have apart : (is, d) ≠ (js, e) := fun same => Sooner.irrefl is (by simpa [← (Prod.mk.inj same).1] using sooner)
    rcases pair_sublist_of_mem mem mem' apart with sub | sub
    · exact sub.map (·.2)
    · have later : Sooner js is := List.rel_of_pairwise_cons (sorted.sublist sub) (List.mem_singleton_self (is, d))
      exact absurd later sooner.asymm

/-- When a type stands in front of one that it derives from: if it is reached sooner than over any way to the
other, which is so in particular if all ways to the other are equally long.  Where the type declares a getter or a
member of a field, it is then found in that type or in front of it, and not in the other. -/
theorem lineage_derived_first (acyclic : ∀ t, ¬ r.Derives t t) {e : Descriptor} (hd : d ∈ r.lineage name)
    (he : e ∈ r.lineage name) (derives : r.Derives d.name e.name) :
    ([d, e].Sublist (r.lineage name) ↔
        ∃ is, r.Ascent name is d.name ∧ ∀ js, r.Ascent name js e.name → Sooner is js) ∧
      ((∀ is js, r.Ascent name is e.name → r.Ascent name js e.name → is.length = js.length) →
        [d, e].Sublist (r.lineage name)) ∧
      ([d, e].Sublist (r.lineage name) → ∀ field,
        ((d.getter? field).isSome → ∃ x ≠ e, (x = d ∨ [x, d].Sublist (r.lineage name)) ∧
          (x.getter? field).isSome ∧ r.getter? name field = x.getter? field) ∧
        ((d.member? field).isSome → ∃ x ≠ e, (x = d ∨ [x, d].Sublist (r.lineage name)) ∧
          (x.member? field).isSome ∧ r.member? name field = x.member? field)) := by
  obtain ⟨is, soonest, known⟩ := mem_lineage named hd
  obtain ⟨js, soonest', known'⟩ := mem_lineage named he
  have order := sublist_lineage_iff named known known' soonest soonest'
  have apart : d ≠ e := by
    rintro rfl
    exact acyclic d.name derives
  refine ⟨⟨fun sub => ⟨is, soonest.ascent, fun ks ascent => ?_⟩, fun ⟨ks, ascent, sooner⟩ => ?_⟩, fun level => ?_,
    fun sub field => ?_⟩
  · by_cases same : js = ks
    · exact same ▸ order.1 sub
    · refine (order.1 sub).trans ?_
      by_contra late
      exact same (Sooner.eq_of_not late (soonest'.least ks ascent))
  · refine order.2 ?_
    have first := sooner js soonest'.ascent
    by_cases same : is = ks
    · exact same ▸ first
    · by_contra late
      exact same (Sooner.eq_of_not (fun less => late (less.trans first)) (soonest.least ks ascent))
  · obtain ⟨ks, nonempty, ascent⟩ := derives_iff.1 derives
    have long := level js (is ++ ks) soonest'.ascent (soonest.ascent.append ascent)
    have positive := List.length_pos_iff.2 nonempty
    exact order.2 (.of_length_lt (by rw [long, List.length_append]; omega))
  · -- no type stands both in front of another and behind it
    have front : ∀ x, x = d ∨ [x, d].Sublist (r.lineage name) → x ≠ e := by
      rintro x (rfl | before) rfl
      · exact apart rfl
      · exact (order.1 sub).asymm ((sublist_lineage_iff named known' known soonest' soonest).1 before)
    constructor
    · intro declares
      obtain ⟨x, place, hit, eq⟩ := exists_findSome?_of_mem (f := (Descriptor.getter? · field)) hd declares
      exact ⟨x, front x place, place, hit, eq⟩
    · intro declares
      obtain ⟨x, place, hit, eq⟩ := exists_findSome?_of_mem (f := (Descriptor.member? · field)) hd declares
      exact ⟨x, front x place, place, hit, eq⟩

end Order

/-- A type derives only from types of a lower rank, if the types that are listed have lower ranks. -/
theorem acyclic_of_rank (rank : String → Nat) (lower : ∀ a b, r.Lists a b → rank b < rank a) (t : String) :
    ¬ r.Derives t t := by
  have descends : ∀ {a b}, r.Derives a b → rank b < rank a := by
    intro a b h
    induction h with
    | single listed => exact lower _ _ listed
    | tail _ listed ih => exact (lower _ _ listed).trans ih
  exact fun h => (descends h).false

/-- A type with two ancestors: the base of all types is listed by the first of them, and by what the second
derives from. -/
def forked : Registry :=
  .ofList
    [(Descriptor.ofName "Base").addField "id" (.scalar .string),
      { (Descriptor.ofName "Middle").addField "id" (.scalar .date) with ancestors := ["Base"] },
      { Descriptor.ofName "Left" with ancestors := ["Base"] },
      { Descriptor.ofName "Right" with ancestors := ["Middle"] },
      { Descriptor.ofName "Leaf" with ancestors := ["Left", "Right"] }]

theorem forked_types {d : Descriptor} (known : forked.get? name = some d) :
    (name, d.name, d.ancestors) ∈
      [("Base", "Base", []), ("Leaf", "Leaf", ["Left", "Right"]), ("Left", "Left", ["Base"]),
        ("Middle", "Middle", ["Base"]), ("Right", "Right", ["Middle"])] := by
  have listed := List.mem_map_of_mem (f := fun e => (e.1, e.2.name, e.2.ancestors)) (Entries.mem_of_get? known)
  have types : forked.types.toList.map (fun e => (e.1, e.2.name, e.2.ancestors)) =
      [("Base", "Base", []), ("Leaf", "Leaf", ["Left", "Right"]), ("Left", "Left", ["Base"]),
        ("Middle", "Middle", ["Base"]), ("Right", "Right", ["Middle"])] := by cbv
  rwa [types] at listed

theorem forked_named (name : String) (d : Descriptor) (known : forked.get? name = some d) : d.name = name := by
  have := forked_types known
  simp only [List.mem_cons, Prod.mk.injEq, List.not_mem_nil, or_false] at this
  rcases this with ⟨rfl, h, -⟩ | ⟨rfl, h, -⟩ | ⟨rfl, h, -⟩ | ⟨rfl, h, -⟩ | ⟨rfl, h, -⟩ <;> exact h

theorem forked_acyclic : ∀ t, ¬ forked.Derives t t := by
  let rank (name : String) : Nat := ["Base", "Middle", "Right", "Left", "Leaf"].idxOf name
  refine acyclic_of_rank rank fun a b ⟨d, known, mem⟩ => ?_
  have := forked_types known
  simp only [List.mem_cons, Prod.mk.injEq, List.not_mem_nil, or_false] at this
  rcases this with ⟨rfl, -, h⟩ | ⟨rfl, -, h⟩ | ⟨rfl, -, h⟩ | ⟨rfl, -, h⟩ | ⟨rfl, -, h⟩ <;> rw [h] at mem <;>
    simp only [List.mem_cons, List.not_mem_nil, or_false] at mem
  · rcases mem with rfl | rfl <;> decide
  all_goals subst mem; decide

theorem forked_lineage : (forked.lineage "Leaf").map (·.name) = ["Leaf", "Left", "Right", "Base", "Middle"] := by
  cbv

/-- Every way from the leaf to the base takes two steps or more. -/
theorem forked_long {js : List Nat} (ascent : forked.Ascent "Leaf" js "Base") : 1 < js.length := by
  generalize leaf : "Leaf" = first, base : "Base" = last at ascent
  cases ascent with
  | here => exact absurd (leaf.trans base.symm) (by decide)
  | up known listed rest =>
    cases rest with
    | up => simp
    | here =>
      have mem := List.mem_of_getElem? listed
      have types := forked_types known
      simp only [← leaf, List.mem_cons, Prod.mk.injEq, String.reduceEq, false_and, true_and, false_or,
        List.not_mem_nil, or_false] at types
      simp [types.2, ← base] at mem

theorem lineage_derived_first_forked :
    ∃ d e, d ∈ forked.lineage "Leaf" ∧ e ∈ forked.lineage "Leaf" ∧ d.name = "Right" ∧ e.name = "Base" ∧
      forked.Derives d.name e.name ∧ [d, e].Sublist (forked.lineage "Leaf") := by
  obtain ⟨d, hd, right⟩ : ∃ d ∈ forked.lineage "Leaf", d.name = "Right" :=
    List.mem_map.1 (forked_lineage ▸ by decide)
  obtain ⟨e, he, base⟩ : ∃ e ∈ forked.lineage "Leaf", e.name = "Base" :=
    List.mem_map.1 (forked_lineage ▸ by decide)
  have derives : forked.Derives d.name e.name := by
    rw [right, base]
    exact .tail (.single ⟨_, rfl, List.mem_cons_self (a := "Middle")⟩) ⟨_, rfl, List.mem_cons_self⟩
  refine ⟨d, e, hd, he, right, base, derives, ?_⟩
  refine (lineage_derived_first forked_named forked_acyclic hd he derives).1.2 ⟨[1], ?_, fun js ascent => ?_⟩
  · rw [right]
    exact .single (d := (forked.get? "Leaf").get (by cbv)) (by simp) (by cbv)
  · exact .of_length_lt (forked_long (base ▸ ascent))

/-- Where a base is reached sooner than a type that derives from it, the base comes first, and what it declares
hides what the derived type declares. -/
theorem lineage_base_first :
    (∀ t, ¬ forked.Derives t t) ∧ forked.Derives "Middle" "Base" ∧
      (forked.lineage "Leaf").map (·.name) = ["Leaf", "Left", "Right", "Base", "Middle"] ∧
      ((forked.get? "Middle").bind (·.getter? "id")).map (·.result) = some (.scalar .date) ∧
      (forked.getter? "Leaf" "id").map (·.result) = some (.scalar .string) ∧
      (forked.get? "Middle").bind (·.member? "id") = some ⟨"id", .scalar .date⟩ ∧
      forked.member? "Leaf" "id" = some ⟨"id", .scalar .string⟩ := by
  refine ⟨forked_acyclic, ?_, forked_lineage, ?_, ?_, ?_, ?_⟩
  · exact .single ⟨_, rfl, List.mem_cons_self⟩
  all_goals cbv

end Registry

end FieldBinding
