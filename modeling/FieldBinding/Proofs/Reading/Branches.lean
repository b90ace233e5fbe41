import FieldBinding.Proofs.Reading.Elements

/-!
# The branches of a read

At a wildcard a walk parts into one branch for each element.  A `Registry.Branch` is one way through all of them: the
stages that the walk comes to, and the numbers of the elements that it takes.  Every branch ends with a single finding,
and the findings of a walk are those of its branches, in the order of these numbers.

So a warning can be told from its branch.  It is there if the branch does not come to the owner of the last segment, or
comes there and finds that the last segment has brackets for a value that holds no elements.  What is missing otherwise
is missing at the last segment, and is null without a warning.

Main results:

* `Registry.halts_of_move` — why a walk stops, and when it does so without a fault.
* `Stage.exists_branches` — the findings of a walk are those of its branches, in order.
* `Registry.Branch.yields` — which branches end with a warning.
* `Registry.read_branches` — the statement for reads.
-/

namespace FieldBinding

/-- The fields that were read, in order. -/
def Extracted.fields : Extracted → List Field
  | field f => [f]
  | group g => g.fields

namespace Stage

/-! ## Where a walk stops -/

/-- The next segment stops the walk. -/
inductive Halts (r : Registry) (t : Stage) (segment : Segment) (last : Bool) : Option ReadFault → Prop
  /-- There is nothing to look into. -/
  | null (value : t.value = .null) : Halts r t segment last (some (.nothingBefore segment.expression))
  /-- The look-up of the child fails. -/
  | failed {e : BindError} {g : Graph} (value : t.value ≠ .null)
      (run : (r.child t.value segment.name).run t.graph = (.error e, g)) :
      Halts r t segment last (if last then none else some (.step e))
  /-- The collection is missing. -/
  | absent {g : Graph} (value : t.value ≠ .null) (brackets : segment.isCollection = true)
      (run : (r.child t.value segment.name).run t.graph = (.ok .null, g)) :
      Halts r t segment last (if last then none else some (.absentCollection segment.name))
  /-- The child is not a collection. -/
  | other {child : Value} {g : Graph} (value : t.value ≠ .null) (brackets : segment.isCollection = true)
      (run : (r.child t.value segment.name).run t.graph = (.ok child, g)) (present : child ≠ .null)
      (holds : child.isCollection = false) :
      Halts r t segment last (some (.notCollection segment.expression))

end Stage

namespace Registry

variable {r : Registry} {template : Field} {s t : Stage} {segment : Segment} {rest : List Segment}

/-- Why a walk stops, and when it does so without a fault. -/
theorem halts_of_move {last : Bool} {fault : Option ReadFault} {g : Graph}
    (goes : r.move s.value segment last s.graph = (.stop fault, g)) : s.Halts r segment last fault := by
  by_cases null : s.value = .null
  · rw [null] at goes
    cases goes
    exact .null null
  rw [move_run r (by rwa [Value.isNull_iff])] at goes
  rcases run : (r.child s.value segment.name).run s.graph with ⟨e | child, g'⟩
  · rw [run] at goes
    cases goes
    exact .failed null run
  rw [run] at goes
  obtain ⟨stops, -⟩ := Prod.mk.inj goes
  unfold behind at stops
  split at stops
  · cases stops
  next brackets =>
  rw [Bool.not_eq_true', Bool.not_eq_false] at brackets
  split at stops
  · next absent =>
    rw [Value.isNull_iff.1 absent] at run
    cases stops
    exact .absent null brackets run
  next present =>
  split at stops
  · next holds =>
    cases stops
    exact .other null brackets run (by rwa [Value.isNull_iff] at present) (by simpa using holds)
  · split at stops <;> cases stops

/-- What stops a walk. -/
theorem move_of_halts {last : Bool} {fault : Option ReadFault} (halts : s.Halts r segment last fault) :
    ∃ g, r.move s.value segment last s.graph = (.stop fault, g) := by
  cases halts with
  | null value =>
    rw [value]
    exact ⟨_, rfl⟩
  | failed value run => exact ⟨_, by rw [move_run r (by rwa [Value.isNull_iff]), run]⟩
  | @absent g value brackets run =>
    refine ⟨g, ?_⟩
    rw [move_run r (by rwa [Value.isNull_iff]), run]
    simp [behind, brackets, Value.isNull]
  | @other child g value brackets run present holds =>
    refine ⟨g, ?_⟩
    have notNull : child.isNull = false := Value.isNull_eq_false_iff.2 present
    rw [move_run r (by rwa [Value.isNull_iff]), run]
    simp [behind, brackets, notNull, holds]

/-! ## Branches -/

/-- One way of a walk from a stage on: the numbers of the elements that it takes under the wildcards, and the stages
that it comes to, of which the last shows a single finding. -/
inductive Branch (r : Registry) (template : Field) : Stage → List Nat → List Stage → Prop
  | done {s : Stage} (last : s.segments = []) : Branch r template s [] [s]
  | stop {s : Stage} {segment : Segment} {rest : List Segment} {fault : Option ReadFault}
      (next : s.segments = segment :: rest) (halts : s.Halts r segment rest.isEmpty fault) : Branch r template s [] [s]
  | on {s : Stage} {segment : Segment} {rest : List Segment} {v : Value} {g : Graph} {taken : List Nat}
      {stages : List Stage} (next : s.segments = segment :: rest)
      (goes : r.move s.value segment rest.isEmpty s.graph = (.on v, g))
      (later : Branch r template (s.onto v g) taken stages) : Branch r template s taken (s :: stages)
  /-- An element is looked at when the walk is through with the elements before it. -/
  | each {s : Stage} {segment : Segment} {rest : List Segment} {elements : List (Slot × Value)} {g : Graph} {k : Nat}
      {slot : Slot} {v : Value} {q : Path} {taken : List Nat} {stages : List Stage}
      (next : s.segments = segment :: rest)
      (goes : r.move s.value segment rest.isEmpty s.graph = (.each elements, g))
      (element : elements[k]? = some (slot, v)) (put : s.path.withSlotAt s.position slot = .ok q)
      (later : Branch r template
        (s.into q v k (joinM (r.followAt template s.path s.position rest) (elements.zipIdx.take k) g).2) taken stages) :
      Branch r template s (k :: taken) (s :: stages)

end Registry

namespace Stage

/-- The walk has come to the owner of the last segment, which is not null.  Of a root without brackets nothing is left
to follow. -/
def IsOwner (t : Stage) : Prop :=
  t.segments.length ≤ 1 ∧ t.value ≠ .null

/-- The last segment is next and has brackets, but its name stands for a value that holds no elements. -/
def NoCollection (r : Registry) (t : Stage) : Prop :=
  ∃ last child g, t.segments = [last] ∧ last.isCollection = true ∧
    (r.child t.value last.name).run t.graph = (.ok child, g) ∧ child ≠ .null ∧ child.isCollection = false

variable {r : Registry} {s t : Stage} {segment : Segment} {rest : List Segment} {fault : Option ReadFault}

theorem isOwner_iff (next : t.segments = segment :: rest) : t.IsOwner ↔ rest = [] ∧ t.value ≠ .null := by
  rw [IsOwner, next, List.length_cons, Nat.succ_le_succ_iff, Nat.le_zero, List.length_eq_zero_iff]

theorem noCollection_iff (next : t.segments = segment :: rest) : t.NoCollection r ↔ rest = [] ∧
    segment.isCollection = true ∧ ∃ child g, (r.child t.value segment.name).run t.graph = (.ok child, g) ∧
      child ≠ .null ∧ child.isCollection = false := by
  constructor
  · rintro ⟨last, child, g, only, brackets, run, present, holds⟩
    obtain ⟨rfl, rfl⟩ := List.cons.inj (next.symm.trans only)
    exact ⟨rfl, brackets, child, g, run, present, holds⟩
  · rintro ⟨rfl, brackets, child, g, run, present, holds⟩
    exact ⟨segment, child, g, next, brackets, run, present, holds⟩

/-- A walk stops without a fault if it stands on the owner of the last segment, and there is nothing or a collection. -/
theorem Halts.isSome_iff (halts : t.Halts r segment rest.isEmpty fault) (next : t.segments = segment :: rest) :
    fault.isSome ↔ ¬t.IsOwner ∨ t.NoCollection r := by
  rw [isOwner_iff next, noCollection_iff next]
  have single : ∀ fault : ReadFault, (if rest.isEmpty then none else some fault).isSome ↔ rest ≠ [] := fun fault => by
    cases rest <;> simp
  cases halts with
  | null value => simp [value]
  | failed value run =>
    rw [single, or_iff_left]
    · simp [value]
    · rintro ⟨-, -, child, g, run', -⟩
      rw [run] at run'
      cases run'
  | absent value brackets run =>
    rw [single, or_iff_left]
    · simp [value]
    · rintro ⟨-, -, child, g, run', present, -⟩
      rw [run] at run'
      cases run'
      exact present rfl
  | @other child g value brackets run present holds =>
    refine iff_of_true rfl ?_
    by_cases empty : rest = []
    · exact .inr ⟨empty, brackets, child, g, run, present, holds⟩
    · exact .inl fun owner => empty owner.1

end Stage

namespace Registry.Branch

variable {r : Registry} {template : Field} {s t : Stage} {segment : Segment} {rest : List Segment} {taken : List Nat}
  {stages : List Stage}

/-- Behind the last segment there is one stage. -/
theorem of_done (branch : r.Branch template s taken stages) (last : s.segments = []) : taken = [] ∧ stages = [s] := by
  cases branch with
  | done => exact ⟨rfl, rfl⟩
  | stop next => simp [last] at next
  | on next => simp [last] at next
  | each next => simp [last] at next

/-- A walk goes on from a value only, and past brackets only where there is a collection. -/
theorem of_move (next : s.segments = segment :: rest) {m : Move} {g : Graph}
    (goes : r.move s.value segment rest.isEmpty s.graph = (m, g)) (on : ∀ fault, m ≠ .stop fault) :
    s.value ≠ .null ∧ ¬s.NoCollection r := by
  have halts : ∀ fault, ¬s.Halts r segment rest.isEmpty fault := fun fault halts => by
    obtain ⟨g', stops⟩ := move_of_halts halts
    rw [stops] at goes
    exact on fault (Prod.mk.inj goes).1.symm
  refine ⟨fun null => halts _ (.null null), fun none => ?_⟩
  obtain ⟨-, brackets, child, g', run, present, holds⟩ := (Stage.noCollection_iff next).1 none
  by_cases null : s.value = .null
  · exact halts _ (.null null)
  · exact halts _ (.other null brackets run present holds)

/-- The last stage of a branch has no segment left, or is stopped by the next one. -/
theorem ends (branch : r.Branch template s taken stages) : ∃ t, stages.getLast? = some t ∧ (t.segments = [] ∨
    ∃ segment rest fault, t.segments = segment :: rest ∧ t.Halts r segment rest.isEmpty fault) := by
  induction branch with
  | done last => exact ⟨_, rfl, .inl last⟩
  | stop next halts => exact ⟨_, rfl, .inr ⟨_, _, _, next, halts⟩⟩
  | on _ _ _ ih =>
    obtain ⟨t, last, ends⟩ := ih
    exact ⟨t, by rw [List.getLast?_cons, last]; rfl, ends⟩
  | each _ _ _ _ _ ih =>
    obtain ⟨t, last, ends⟩ := ih
    exact ⟨t, by rw [List.getLast?_cons, last]; rfl, ends⟩

/-- The last stage of a branch is that of what comes behind its first stage. -/
theorem getLast?_cons (branch : r.Branch template s taken stages) {u : Stage} (last : (u :: stages).getLast? = some t) :
    stages.getLast? = some t := by
  obtain ⟨t', last', -⟩ := branch.ends
  rw [List.getLast?_cons, last'] at last
  rw [last', ← last]
  rfl

/-- What a branch has behind a segment, it has come to from a value. -/
theorem owner_cons (next : s.segments = segment :: rest) (value : s.value ≠ .null) {s' : Stage}
    (behind : s'.segments = rest) (later : r.Branch template s' taken stages) (last : stages.getLast? = some t)
    (ih : rest ≠ [] → ((∃ u ∈ stages, u.IsOwner) ↔ t.segments = [] ∨ t.IsOwner)) :
    (∃ u ∈ s :: stages, u.IsOwner) ↔ t.segments = [] ∨ t.IsOwner := by
  by_cases empty : rest = []
  · -- the first stage is the owner itself
    obtain ⟨-, rfl⟩ := later.of_done (behind.trans empty)
    obtain rfl : s' = t := Option.some.inj last
    exact iff_of_true ⟨s, List.mem_cons_self, (Stage.isOwner_iff next).2 ⟨empty, value⟩⟩ (.inl (behind.trans empty))
  · have far : ¬s.IsOwner := fun owner => empty ((Stage.isOwner_iff next).1 owner).1
    simpa [far] using ih empty

/-- A branch comes to the owner of the last segment if it ends there or behind the last segment. -/
theorem owner_iff (branch : r.Branch template s taken stages) (start : s.segments = [] → s.value ≠ .null)
    (last : stages.getLast? = some t) : (∃ u ∈ stages, u.IsOwner) ↔ t.segments = [] ∨ t.IsOwner := by
  induction branch with
  | done done =>
    obtain rfl := Option.some.inj last
    refine iff_of_true ⟨_, List.mem_singleton_self _, ?_, start done⟩ (.inl done)
    simp [done]
  | stop next =>
    obtain rfl := Option.some.inj last
    simp [next]
  | @on s segment rest v g taken stages next goes later ih =>
    have last' : stages.getLast? = some t := later.getLast?_cons last
    have behind := Stage.segments_onto next v g
    exact owner_cons next (of_move next goes (fun _ => nofun)).1 behind later last'
      fun more => ih (fun done => absurd (behind.symm.trans done) more) last'
  | @each s segment rest elements g k slot v q taken stages next goes element put later ih =>
    have last' : stages.getLast? = some t := later.getLast?_cons last
    have behind := Stage.segments_into next put v k
    exact owner_cons next (of_move next goes (fun _ => nofun)).1 (behind _) later last'
      fun more => ih (fun done => absurd ((behind _).symm.trans done) more) last'

/-- No stage but the last can lack a collection for the brackets of the last segment. -/
theorem noCollection_iff (branch : r.Branch template s taken stages) (last : stages.getLast? = some t) :
    (∃ u ∈ stages, u.NoCollection r) ↔ t.NoCollection r := by
  induction branch with
  | done done =>
    obtain rfl := Option.some.inj last
    simp
  | stop next =>
    obtain rfl := Option.some.inj last
    simp
  | on next goes later ih =>
    have passed := (of_move next goes (fun _ => nofun)).2
    simpa [passed] using ih (later.getLast?_cons last)
  | each next goes element put later ih =>
    have passed := (of_move next goes (fun _ => nofun)).2
    simpa [passed] using ih (later.getLast?_cons last)

/-- A branch has its path and its index from the first stage if there are no wildcards on the way. -/
theorem single (branch : r.Branch template s taken stages) (single : s.segments.any Segment.isWildcard = false)
    (last : stages.getLast? = some t) : t.path = s.path ∧ t.index = s.index := by
  induction branch with
  | done done =>
    obtain rfl := Option.some.inj last
    exact ⟨rfl, rfl⟩
  | stop next =>
    obtain rfl := Option.some.inj last
    exact ⟨rfl, rfl⟩
  | @on s segment rest v g taken stages next goes later ih =>
    rw [next, List.any_cons, Bool.or_eq_false_iff] at single
    exact ih (by rw [Stage.segments_onto next]; exact single.2) (later.getLast?_cons last)
  | each next goes =>
    obtain ⟨_, _, wild, _⟩ := (Stage.move_eq_each_iff next).1 goes
    rw [next, List.any_cons, wild] at single
    cases single

/-! ## The list of branches -/

/-- The branches of a stage by its move. -/
theorem cons_iff (next : s.segments = segment :: rest) :
    r.Branch template s taken stages ↔
      match r.move s.value segment rest.isEmpty s.graph with
      | (.stop _, _) => taken = [] ∧ stages = [s]
      | (.on v, g) => ∃ later, r.Branch template (s.onto v g) taken later ∧ stages = s :: later
      | (.each elements, g) => ∃ k slot v q, elements[k]? = some (slot, v) ∧ s.path.withSlotAt s.position slot = .ok q ∧
          ∃ others later, r.Branch template (s.into q v k
            (joinM (r.followAt template s.path s.position rest) (elements.zipIdx.take k) g).2) others later ∧
            taken = k :: others ∧ stages = s :: later := by
  constructor
  · intro branch
    cases branch with
    | done done => simp [done] at next
    | stop next' halts =>
      obtain ⟨rfl, rfl⟩ := List.cons.inj (next.symm.trans next')
      obtain ⟨g, goes⟩ := move_of_halts halts
      rw [goes]
      exact ⟨rfl, rfl⟩
    | on next' goes later =>
      obtain ⟨rfl, rfl⟩ := List.cons.inj (next.symm.trans next')
      rw [goes]
      exact ⟨_, later, rfl⟩
    | each next' goes element put later =>
      obtain ⟨rfl, rfl⟩ := List.cons.inj (next.symm.trans next')
      rw [goes]
      exact ⟨_, _, _, _, element, put, _, _, later, rfl, rfl⟩
  · rcases goes : r.move s.value segment rest.isEmpty s.graph with ⟨fault | v | elements, g⟩
    · rintro ⟨rfl, rfl⟩
      exact .stop next (halts_of_move goes)
    · rintro ⟨later, branch, rfl⟩
      exact .on next goes branch
    · rintro ⟨k, slot, v, q, element, put, others, later, branch, rfl, rfl⟩
      exact .each next goes element put branch

end Registry.Branch

namespace Stage

/-- The finding at the end of a branch. -/
def Ends (r : Registry) (template : Field) (stages : List Stage) (f : Finding) : Prop :=
  ∃ t, stages.getLast? = some t ∧ (t.walk r template).1 = [f]

theorem Ends.cons {r : Registry} {template : Field} {stages : List Stage} {f : Finding} (s : Stage)
    (ends : Ends r template stages f) : Ends r template (s :: stages) f := by
  obtain ⟨t, last, shown⟩ := ends
  exact ⟨t, by rw [List.getLast?_cons, last]; rfl, shown⟩

/-- A list of all ways of some kind, in the order of their numbers, each with its own one among some findings. -/
structure Enumerates (r : Registry) (template : Field) (way : List Nat → List Stage → Prop) (findings : List Finding)
    (branches : List (List Nat × List Stage)) : Prop where
  mem_iff : ∀ taken stages, (taken, stages) ∈ branches ↔ way taken stages
  sorted : branches.Pairwise fun b b' => b.1 < b'.1
  shown : List.Forall₂ (fun b f => Ends r template b.2 f) branches findings

namespace Enumerates

variable {r : Registry} {template : Field} {way : List Nat → List Stage → Prop} {findings : List Finding}
  {branches : List (List Nat × List Stage)}

theorem congr {way' : List Nat → List Stage → Prop} (enumerates : Enumerates r template way findings branches)
    (same : ∀ taken stages, way' taken stages ↔ way taken stages) : Enumerates r template way' findings branches :=
  ⟨fun taken stages => (enumerates.mem_iff taken stages).trans (same taken stages).symm, enumerates.sorted,
    enumerates.shown⟩

/-- All ways have a stage in front, and some numbers. -/
theorem cons (enumerates : Enumerates r template way findings branches) (ks : List Nat) (s : Stage) :
    Enumerates r template
      (fun taken stages => ∃ others later, way others later ∧ taken = ks ++ others ∧ stages = s :: later) findings
      (branches.map fun b => (ks ++ b.1, s :: b.2)) where
  mem_iff taken stages := by
    simp only [List.mem_map, Prod.exists, enumerates.mem_iff, Prod.mk.injEq, eq_comm]
  sorted := by
    rw [List.pairwise_map]
    exact enumerates.sorted.imp fun lt => List.append_left_lt lt
  shown := by
    rw [List.forall₂_map_left_iff]
    exact enumerates.shown.imp fun _ _ => Ends.cons s

/-- Ways that are numbered one after another are listed one after another. -/
theorem flatten {ways : Nat → List Nat → List Stage → Prop}
    (first : ∀ k taken stages, ways k taken stages → ∃ others, taken = k :: others) (n : Nat)
    {parts : List (List Finding)}
    (each : ∀ k part, parts[k]? = some part → ∃ branches, Enumerates r template (ways (n + k)) part branches) :
    ∃ branches, Enumerates r template (fun taken stages => ∃ k < parts.length, ways (n + k) taken stages)
      parts.flatten branches := by
  induction parts generalizing n with
  | nil => exact ⟨[], by simp, .nil, .nil⟩
  | cons part parts ih =>
    obtain ⟨front, here⟩ := each 0 part rfl
    obtain ⟨behind, there⟩ := ih (n + 1) fun k part found => by
      rw [Nat.add_right_comm]
      exact each (k + 1) part found
    refine ⟨front ++ behind, fun taken stages => ?_, ?_, List.rel_append here.shown there.shown⟩
    · rw [List.mem_append, here.mem_iff, there.mem_iff, List.length_cons, Nat.exists_lt_succ_left]
      simp only [Nat.add_zero, Nat.add_assoc, Nat.add_comm 1]
    · refine List.pairwise_append.2 ⟨here.sorted, there.sorted, fun b mem b' mem' => ?_⟩
      -- the first numbers decide: all ways of the first part have a smaller one
      obtain ⟨others, eq⟩ := first _ _ _ ((here.mem_iff b.1 b.2).1 mem)
      obtain ⟨k, -, way⟩ := (there.mem_iff b'.1 b'.2).1 mem'
      obtain ⟨others', eq'⟩ := first _ _ _ way
      rw [eq, eq']
      exact List.Lex.rel (by omega)

end Enumerates

section Each

variable {r : Registry} {template : Field} {s : Stage} {segment : Segment} {rest : List Segment}

/-- The branches through one of the elements under a wildcard. -/
def Through (r : Registry) (template : Field) (s : Stage) (rest : List Segment) (elements : List (Slot × Value))
    (g : Graph) (k : Nat) (taken : List Nat) (stages : List Stage) : Prop :=
  ∃ slot v q, elements[k]? = some (slot, v) ∧ s.path.withSlotAt s.position slot = .ok q ∧
    ∃ others later, r.Branch template (s.into q v k
      (joinM (r.followAt template s.path s.position rest) (elements.zipIdx.take k) g).2) others later ∧
      taken = k :: others ∧ stages = s :: later

/-- The findings of an element are those of the branches through it. -/
theorem exists_through {elements : List (Slot × Value)} {g : Graph} (next : s.segments = segment :: rest)
    (behind : ∀ t : Stage, t.segments = rest →
      ∃ branches, Enumerates r template (r.Branch template t) (t.walk r template).1 branches) {k : Nat}
    {part : List Finding}
    (found : (elements.zipIdx.mapM (r.followAt template s.path s.position rest) g).1[k]? = some part) :
    ∃ branches, Enumerates r template (Through r template s rest elements g k) part branches := by
  rw [getElem?_mapM, Option.map_eq_some_iff] at found
  obtain ⟨⟨⟨slot, v⟩, i⟩, element, rfl⟩ := found
  rw [List.getElem?_zipIdx, Option.map_eq_some_iff] at element
  obtain ⟨_, element, same⟩ := element
  rw [Nat.zero_add] at same
  cases same
  cases put : s.path.withSlotAt s.position slot with
  | ok q =>
    rw [followAt_eq_walk r template next put]
    obtain ⟨branches, enumerates⟩ := behind _ (segments_into next put v k _)
    refine ⟨_, (enumerates.cons [k] s).congr fun taken stages => ?_⟩
    simp [Through, element, put]
  | error e =>
    -- an element without a place has neither a branch nor a finding
    have none : ∀ g, (r.followAt template s.path s.position rest ((slot, v), k) g).1 = [] := by
      intro g
      simp only [Registry.followAt, put]
      rfl
    rw [none]
    exact ⟨[], fun taken stages => by simp [Through, element, put], .nil, .nil⟩

/-- The findings under a wildcard are those of the branches through each element. -/
theorem exists_each (elements : List (Slot × Value)) (g : Graph) (next : s.segments = segment :: rest)
    (behind : ∀ t : Stage, t.segments = rest →
      ∃ branches, Enumerates r template (r.Branch template t) (t.walk r template).1 branches) :
    ∃ branches, Enumerates r template (fun taken stages => ∃ k, Through r template s rest elements g k taken stages)
      (joinM (r.followAt template s.path s.position rest) elements.zipIdx g).1 branches := by
  have first : ∀ k taken stages, Through r template s rest elements g k taken stages →
      ∃ others, taken = k :: others := by
    rintro k taken stages ⟨-, -, -, -, -, others, -, -, eq, -⟩
    exact ⟨others, eq⟩
  obtain ⟨branches, enumerates⟩ := Enumerates.flatten first 0 fun k part found => by
    rw [Nat.zero_add]
    exact exists_through next behind found
  rw [joinM_fst]
  refine ⟨branches, enumerates.congr fun taken stages => ?_⟩
  simp only [Nat.zero_add]
  constructor
  · rintro ⟨k, way⟩
    refine ⟨k, ?_, way⟩
    obtain ⟨slot, v, q, element, -⟩ := way
    rw [length_mapM, List.length_zipIdx]
    exact (List.getElem?_eq_some_iff.1 element).1
  · rintro ⟨k, -, way⟩
    exact ⟨k, way⟩

end Each

/-- The findings of a walk are those of its branches, in the order of the elements that the branches take. -/
theorem exists_branches (r : Registry) (template : Field) (s : Stage) :
    ∃ branches, Enumerates r template (r.Branch template s) (s.walk r template).1 branches := by
  -- every move leaves one segment less, whatever the value and the graph that it leads to
  generalize ahead : s.segments = segments
  induction segments generalizing s with
  | nil =>
    refine ⟨[([], [s])], fun taken stages => ?_, List.pairwise_singleton _ _, ?_⟩
    · rw [List.mem_singleton, Prod.mk.injEq]
      exact ⟨fun ⟨taken, stages⟩ => taken ▸ stages ▸ .done ahead, fun branch => branch.of_done ahead⟩
    · rw [walk_nil r template ahead]
      exact .cons ⟨s, rfl, by rw [walk_nil r template ahead]⟩ .nil
  | cons segment rest ih =>
    have branches_iff := fun taken stages => @Registry.Branch.cons_iff r template s segment rest taken stages ahead
    rcases goes : r.move s.value segment rest.isEmpty s.graph with ⟨fault | v | elements, g⟩
    · refine ⟨[([], [s])], fun taken stages => ?_, List.pairwise_singleton _ _, ?_⟩
      · rw [List.mem_singleton, Prod.mk.injEq, branches_iff, goes]
      · rw [walk_cons r template ahead, goes]
        exact .cons ⟨s, rfl, by rw [walk_cons r template ahead, goes]⟩ .nil
    · obtain ⟨branches, enumerates⟩ := ih (s.onto v g) (segments_onto ahead v g)
      rw [walk_cons r template ahead, goes]
      refine ⟨_, (enumerates.cons [] s).congr fun taken stages => ?_⟩
      rw [branches_iff, goes]
      simp
    · obtain ⟨branches, enumerates⟩ := exists_each elements g ahead ih
      rw [walk_cons r template ahead, goes]
      refine ⟨branches, enumerates.congr fun taken stages => ?_⟩
      rw [branches_iff, goes]
      exact .rfl

end Stage

/-! ## Reads -/

namespace Registry

variable {r : Registry} {template : Field}

/-- What a read yields for a branch: a field and perhaps a remark. -/
structure Yields (r : Registry) (stages : List Stage) (f : Field) (remark : Option Audit) : Prop where
  /-- The field has the path and the index of the last stage, and its value if no segment is left. -/
  field : ∃ t, stages.getLast? = some t ∧ f.path = t.path ∧ f.index = t.index ∧
    f.value = if t.segments = [] then t.value else .null
  /-- There is a remark if the owner of the last segment is not reached, or it has no collection for the brackets. -/
  remarked : remark.isSome ↔ (¬∃ t ∈ stages, t.IsOwner) ∨ ∃ t ∈ stages, t.NoCollection r
  /-- A remark is a warning at the path of the field, which is null, and says what has stopped the walk. -/
  warning : ∀ a ∈ remark, a.status = .warn ∧ a.path = f.path.text ∧ f.value = .null ∧
    ∃ t segment rest fault, stages.getLast? = some t ∧ t.segments = segment :: rest ∧
      t.Halts r segment rest.isEmpty (some fault) ∧ a.message = fault.message

/-- The finding at the end of a branch is what the read yields for it. -/
theorem Branch.yields {s : Stage} {taken : List Nat} {stages : List Stage} {f : Finding}
    (branch : r.Branch template s taken stages) (start : s.segments = [] → s.value ≠ .null)
    (ends : Stage.Ends r template stages f) : r.Yields stages f.field f.audit? := by
  obtain ⟨t, last, shown⟩ := ends
  obtain ⟨t', last', ends⟩ := branch.ends
  obtain rfl : t = t' := Option.some.inj (last.symm.trans last')
  have owner := branch.owner_iff start last
  have collection := branch.noCollection_iff last
  rcases ends with done | ⟨segment, rest, fault, next, halts⟩
  · rw [Stage.walk_nil r template done] at shown
    obtain rfl := List.singleton_inj.1 shown
    refine ⟨⟨t, last, rfl, rfl, by rw [if_pos done]; rfl⟩, ?_, fun a mem => by cases mem⟩
    have holds : ¬t.NoCollection r := fun ⟨_, _, _, only, _⟩ => by simp [done] at only
    rw [owner, collection]
    simp [Finding.audit?, found, done, holds]
  · obtain ⟨g, goes⟩ := move_of_halts halts
    rw [Stage.walk_cons r template next, goes] at shown
    obtain rfl := List.singleton_inj.1 shown
    refine ⟨⟨t, last, rfl, rfl, by rw [if_neg (by simp [next])]; rfl⟩, ?_, fun a mem => ?_⟩
    · have stopped : (halted template t.path t.index fault).audit?.isSome = fault.isSome := Option.isSome_map
      rw [owner, collection, stopped, halts.isSome_iff next]
      simp [next]
    · obtain ⟨fault', rfl, rfl⟩ := Option.map_eq_some_iff.1 mem
      exact ⟨rfl, rfl, rfl, t, segment, rest, fault', last, next, halts, rfl⟩

/-- What a read yields, branch by branch.  The fields are those of the branches, in the order of the elements that the
branches take, and the remarks are those of the fields, in the same order.  Every remark is a warning that belongs to a
null field of its own and says why it is null; the fields without a remark are those whose branch comes to the owner of
the last segment, and finds nothing there or a collection for its brackets.

Without a wildcard there is one field, at the path of the template and without an index, and at most one remark. -/
theorem read_branches (r : Registry) (template : Field) (g : Graph) {source : Value} (value : source ≠ .null) :
    ∃ (e : Extracted) (audits : List Audit) (g' : Graph) (branches : List (List Nat × List Stage))
        (emitted : List (Field × Option Audit)),
      (r.read template source).run g = (.ok (e, audits), g') ∧
      e.fields = emitted.map (·.1) ∧ audits = emitted.filterMap (·.2) ∧
      (∀ taken stages, (taken, stages) ∈ branches ↔ r.Branch template (.start template source g) taken stages) ∧
      branches.Pairwise (fun b b' => b.1 < b'.1) ∧
      List.Forall₂ (fun b e => r.Yields b.2 e.1 e.2) branches emitted ∧
      (template.path.hasWildcard = false → ∃ f remark, e = .field f ∧ emitted = [(f, remark)] ∧
        f.path = template.path ∧ f.index = none ∧ audits.length ≤ 1) := by
  let s := Stage.start template source g
  obtain ⟨branches, enumerates⟩ := Stage.exists_branches r template s
  have yields : List.Forall₂ (fun b f => r.Yields b.2 f.field f.audit?) branches (s.walk r template).1 := by
    have each := (List.forall₂_and_left _ _).2 ⟨fun b mem => (enumerates.mem_iff b.1 b.2).1 mem, enumerates.shown⟩
    exact each.imp fun b f ⟨branch, ends⟩ => branch.yields (fun _ => value) ends
  have single : template.path.hasWildcard = false →
      ∃ f, (s.walk r template).1 = [f] ∧ f.field.path = template.path ∧ f.field.index = none := fun plain => by
    have plain' : s.segments.any Segment.isWildcard = false := by
      rw [Stage.segments_start]
      exact template.path.followed_single plain
    obtain ⟨f, one, index⟩ := Stage.walk_single r template plain'
    rw [one] at yields
    obtain ⟨b, _, shown, -, eq⟩ := List.forall₂_cons_right_iff.1 yields
    obtain ⟨t, last, path, -⟩ := shown.field
    have branch := (enumerates.mem_iff b.1 b.2).1 (eq ▸ List.mem_cons_self)
    exact ⟨f, one, path.trans (branch.single plain' last).1, index⟩
  refine ⟨_, _, _, branches, (s.walk r template).1.map fun f => (f.field, f.audit?), read_eq_walk r template value g,
    ?_, ?_, enumerates.mem_iff, enumerates.sorted, List.forall₂_map_right_iff.2 yields, fun plain => ?_⟩
  · rw [List.map_map, extracted]
    split
    · rfl
    · next plain =>
      obtain ⟨f, one, -⟩ := single (Bool.eq_false_iff.2 plain)
      rw [one]
      rfl
  · rw [List.filterMap_map]
    rfl
  · obtain ⟨f, one, path, index⟩ := single plain
    rw [one, extracted, plain]
    exact ⟨f.field, f.audit?, rfl, rfl, path, index, List.length_filterMap_le _ [f]⟩

/-- A document with one row and one gap: the rows through a wildcard, and a cell of the gap. -/
theorem read_branches_rows :
    let rows : Tree := .sequence .list .any [.map .any [("n", .scalar (.string "x"))], .null]
    let document := Graph.empty.plant (.map .any [("rows", rows)])
    let cells : Field := { path := ⟨.root, [⟨"rows", .element .list none, false⟩, .field "n"]⟩ }
    let gap : Field := { path := ⟨.root, [⟨"rows", .element .list (some 1), false⟩, .field "n"]⟩ }
    (document.1 ≠ .null ∧ ∃ (e : Extracted) (audits : List Audit) (g' : Graph)
          (branches : List (List Nat × List Stage)) (emitted : List (Field × Option Audit)),
        (empty.read cells document.1).run document.2 = (.ok (e, audits), g') ∧ e.fields = emitted.map (·.1) ∧
        audits = emitted.filterMap (·.2) ∧ List.Forall₂ (fun b e => empty.Yields b.2 e.1 e.2) branches emitted) ∧
      gap.path.hasWildcard = false ∧ ∃ (f : Field) (audits : List Audit) (g' : Graph),
        (empty.read gap document.1).run document.2 = (.ok (.field f, audits), g') ∧ f.path = gap.path ∧
        f.index = none ∧ audits.length ≤ 1 := by
  intro rows document cells gap
  have value : document.1 ≠ .null := by decide
  have plain : gap.path.hasWildcard = false := rfl
  obtain ⟨e, audits, g', branches, emitted, run, fields, remarks, -, -, yields, -⟩ :=
    read_branches empty cells document.2 value
  obtain ⟨_, audits', g'', _, _, run', -, -, -, -, -, single⟩ := read_branches empty gap document.2 value
  obtain ⟨f, -, rfl, -, path, index, count⟩ := single plain
  exact ⟨⟨value, e, audits, g', branches, emitted, run, fields, remarks, yields⟩, plain, f, audits', g'', run', path,
    index, count⟩

end Registry

end FieldBinding
