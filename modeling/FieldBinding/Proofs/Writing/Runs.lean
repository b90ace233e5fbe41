import FieldBinding.Proofs.Running
import FieldBinding.Writing

/-!
# The runs of a step

A step of the writer looks into a slot, makes what is missing, and stores what it has made; each of these can fail,
and what has been done before a failure stays done.  For each step there is a relation here that lists its runs, with
what has been run on the way, and a theorem that there are no others.  A proof about a step goes through its runs, so
that it does not depend on how the step is written.

Main results:

* `Registry.setChild_runs` — the step that stores a child.
* `Writer.childOrCreate_runs`, `Writer.grow_runs`, `Writer.elementOrCreate_runs` — the steps on the way to a place.
* `Writer.storeChild_runs` — the step that stores a queued value under its owner.
* `Writer.ensureRoot_eq` — the root of a document that is asked for.
-/

namespace FieldBinding

variable {r : Registry} {path : Path} {g g' : Graph}

/-! ## Storing a child -/

/-- The runs of `Registry.setChild`.  A map takes every child, and so does an object of an unknown type; an object of a
registered type needs a place for it, and leaves out a null that the place does not take. -/
inductive Registry.PutRun (r : Registry) (g : Graph) (owner : Value) (name : String) (v : Value)
    (hint : Option TypeTag) : Except BindError Unit → Graph → Prop where
  | entry {id : NodeId} (map : owner = .map id) : PutRun r g owner name v hint (.ok ⟨⟩) (g.setEntry id name v)
  | raw {id : NodeId} (object : owner = .object id) (unknown : r.contains (g.object id).typeName = false) :
      PutRun r g owner name v hint (.ok ⟨⟩) (g.setObject id ((g.object id).setMember name v))
  | placeless {id : NodeId} {e : BindError} (object : owner = .object id)
      (known : r.contains (g.object id).typeName) (found : r.place (g.object id).typeName name hint = .error e) :
      PutRun r g owner name v hint (.error e) g
  | skipped {id : NodeId} {place : Place} (object : owner = .object id) (known : r.contains (g.object id).typeName)
      (found : r.place (g.object id).typeName name hint = .ok place) (null : v = .null)
      (primitive : place.type.isNullable = false) : PutRun r g owner name v hint (.ok ⟨⟩) g
  | refused {id : NodeId} {place : Place} {e : BindError} (object : owner = .object id)
      (known : r.contains (g.object id).typeName) (found : r.place (g.object id).typeName name hint = .ok place)
      (nullable : v = .null → place.type.isNullable) (store : place.store (g.object id) v = .error e) :
      PutRun r g owner name v hint (.error e) g
  | stored {id : NodeId} {place : Place} {o : Object} (object : owner = .object id)
      (known : r.contains (g.object id).typeName) (found : r.place (g.object id).typeName name hint = .ok place)
      (nullable : v = .null → place.type.isNullable) (store : place.store (g.object id) v = .ok o) :
      PutRun r g owner name v hint (.ok ⟨⟩) (g.setObject id o)
  | nameless (map : ∀ id, owner ≠ .map id) (object : ∀ id, owner ≠ .object id) :
      PutRun r g owner name v hint (.error (.noAccessor owner.kindName name)) g

theorem Registry.PutRun.run_eq {owner v : Value} {name : String} {hint : Option TypeTag}
    {result : Except BindError Unit} (h : r.PutRun g owner name v hint result g') :
    (r.setChild owner name v hint).run g = (result, g') := by
  have stores : ∀ place : Place, (v = .null → place.type.isNullable) →
      (v.isNull && !place.type.isNullable) = false := by
    intro place nullable
    by_cases null : v = .null
    · rw [nullable null, Bool.not_true, Bool.and_false]
    · rw [Value.isNull_eq_false_iff.2 null, Bool.false_and]
  cases h with
  | entry map =>
    subst map
    rfl
  | raw object unknown =>
    subst object
    simp only [setChild, Running.run_bind, Running.run_get, unknown, Bool.not_false, if_true, Running.run_modify]
  | placeless object known found =>
    subst object
    simp only [setChild, Running.run_bind, Running.run_get, known, Bool.not_true, Bool.false_eq_true, if_false,
      Running.run_liftExcept, found]
  | skipped object known found null primitive =>
    subst object null
    simp only [setChild, Running.run_bind, Running.run_get, known, Bool.not_true, Bool.false_eq_true, if_false,
      Running.run_liftExcept, found, Value.isNull, primitive, Bool.not_false, Bool.and_self, if_true, Running.run_pure]
  | refused object known found nullable store =>
    subst object
    simp only [setChild, Running.run_bind, Running.run_get, known, Bool.not_true, Bool.false_eq_true, if_false,
      Running.run_liftExcept, found, stores _ nullable, store]
  | stored object known found nullable store =>
    subst object
    simp only [setChild, Running.run_bind, Running.run_get, known, Bool.not_true, Bool.false_eq_true, if_false,
      Running.run_liftExcept, found, stores _ nullable, store, Running.run_modify]
  | nameless map object =>
    cases owner with
    | map id => exact absurd rfl (map id)
    | object id => exact absurd rfl (object id)
    | _ => rfl

theorem Registry.setChild_runs {owner v : Value} {name : String} {hint : Option TypeTag}
    {result : Except BindError Unit} (h : (r.setChild owner name v hint).run g = (result, g')) :
    r.PutRun g owner name v hint result g' := by
  suffices total : ∃ result g', r.PutRun g owner name v hint result g' by
    obtain ⟨result, g', run⟩ := total
    rw [run.run_eq] at h
    cases h
    exact run
  cases owner with
  | map id => exact ⟨_, _, .entry rfl⟩
  | object id =>
    by_cases known : r.contains (g.object id).typeName
    case neg => exact ⟨_, _, .raw rfl (by simpa using known)⟩
    cases found : r.place (g.object id).typeName name hint with
    | error e => exact ⟨_, _, .placeless rfl known found⟩
    | ok place =>
      by_cases skipped : (v.isNull && !place.type.isNullable) = true
      · obtain ⟨null, primitive⟩ := Bool.and_eq_true_iff.1 skipped
        exact ⟨_, _, .skipped rfl known found (Value.isNull_iff.1 null) (by simpa using primitive)⟩
      have nullable : v = .null → place.type.isNullable := by
        rintro rfl
        simpa [Value.isNull] using skipped
      cases store : place.store (g.object id) v with
      | error e => exact ⟨_, _, .refused rfl known found nullable store⟩
      | ok o => exact ⟨_, _, .stored rfl known found nullable store⟩
  | _ => exact ⟨_, _, .nameless (fun _ same => by cases same) fun _ same => by cases same⟩

namespace Writer

/-! ## On the way -/

/-- The runs of `childOrCreate`.  A segment without a name stands for the value itself; a child that is missing is made
for the declared type of its place, and then put there. -/
inductive ChildRun (r : Registry) (path : Path) (g : Graph) (v : Value) (s : Segment) (next : Option Segment) :
    Except BindError Value → Graph → Prop where
  | unnamed (unnamed : s.name = "") : ChildRun r path g v s next (.ok v) g
  | lost {e : BindError} {g' : Graph} (named : s.name ≠ "")
      (child : (r.child v s.name).run g = (.error e, g')) : ChildRun r path g v s next (.error e) g'
  | found {c : Value} {g' : Graph} (named : s.name ≠ "") (child : (r.child v s.name).run g = (.ok c, g'))
      (value : c ≠ .null) : ChildRun r path g v s next (.ok c) g'
  | unmade {e : BindError} {g₁ g' : Graph} (named : s.name ≠ "")
      (child : (r.child v s.name).run g = (.ok .null, g₁))
      (make : (newChild r path (r.childType? g₁ v s.name none) s next).run g₁ = (.error e, g')) :
      ChildRun r path g v s next (.error e) g'
  | unstored {c : Value} {e : BindError} {g₁ g₂ g' : Graph} (named : s.name ≠ "")
      (child : (r.child v s.name).run g = (.ok .null, g₁))
      (make : (newChild r path (r.childType? g₁ v s.name none) s next).run g₁ = (.ok c, g₂))
      (put : (r.setChild v s.name c (some (g₂.tagOf c))).run g₂ = (.error e, g')) :
      ChildRun r path g v s next (.error e) g'
  | made {c : Value} {g₁ g₂ g' : Graph} (named : s.name ≠ "")
      (child : (r.child v s.name).run g = (.ok .null, g₁))
      (make : (newChild r path (r.childType? g₁ v s.name none) s next).run g₁ = (.ok c, g₂))
      (put : (r.setChild v s.name c (some (g₂.tagOf c))).run g₂ = (.ok ⟨⟩, g')) :
      ChildRun r path g v s next (.ok c) g'

theorem ChildRun.run_eq {v : Value} {s : Segment} {next : Option Segment} {result : Except BindError Value}
    (h : ChildRun r path g v s next result g') : (childOrCreate r path v s next).run g = (result, g') := by
  unfold childOrCreate
  cases h with
  | unnamed unnamed => simp only [unnamed, if_true, Running.run_pure]
  | lost named child => simp only [named, if_false, Running.run_bind, child]
  | found named child value =>
    simp only [named, if_false, Running.run_bind, child, Value.isNull_eq_false_iff.2 value, Bool.not_false, if_true,
      Running.run_pure]
  | unmade named child make =>
    simp only [named, if_false, Running.run_bind, child, Value.isNull, Bool.not_true, Bool.false_eq_true,
      Running.run_get, make]
  | unstored named child make put =>
    simp only [named, if_false, Running.run_bind, child, Value.isNull, Bool.not_true, Bool.false_eq_true,
      Running.run_get, make, put]
  | made named child make put =>
    simp only [named, if_false, Running.run_bind, child, Value.isNull, Bool.not_true, Bool.false_eq_true,
      Running.run_get, make, put, Running.run_pure]

theorem childOrCreate_runs {v : Value} {s : Segment} {next : Option Segment} {result : Except BindError Value}
    (h : (childOrCreate r path v s next).run g = (result, g')) : ChildRun r path g v s next result g' := by
  suffices total : ∃ result g', ChildRun r path g v s next result g' by
    obtain ⟨result, g', run⟩ := total
    rw [run.run_eq] at h
    cases h
    exact run
  by_cases named : s.name = ""
  · exact ⟨_, _, .unnamed named⟩
  rcases child : (r.child v s.name).run g with ⟨e | c, g₁⟩
  · exact ⟨_, _, .lost named child⟩
  by_cases missing : c = .null
  case neg => exact ⟨_, _, .found named child missing⟩
  subst missing
  rcases make : (newChild r path (r.childType? g₁ v s.name none) s next).run g₁ with ⟨e | c, g₂⟩
  · exact ⟨_, _, .unmade named child make⟩
  rcases put : (r.setChild v s.name c (some (g₂.tagOf c))).run g₂ with ⟨e | u, g₃⟩
  · exact ⟨_, _, .unstored named child make put⟩
  · exact ⟨_, _, .made named child make put⟩

/-- The runs of `grow`.  The collection stays the same value, or a longer one takes its place in its owner. -/
inductive GrowRun (r : Registry) (path : Path) (g : Graph) (owner : Value) (s : Segment) (c : Value) :
    Except BindError Value → Graph → Prop where
  | kept (why : ∀ index, s.selector.index? = some index → g.grow c index = none) :
      GrowRun r path g owner s c (.ok c) g
  | widened {index : Nat} {g' : Graph} (hindex : s.selector.index? = some index)
      (grows : g.grow c index = some (c, g')) : GrowRun r path g owner s c (.ok c) g'
  | nested {index : Nat} {c' : Value} {g' : Graph} (hindex : s.selector.index? = some index)
      (grows : g.grow c index = some (c', g')) (other : c' ≠ c) (unnamed : s.name = "") :
      GrowRun r path g owner s c (.error (.shape path.text .nestedArrayGrowth)) g'
  | unstored {index : Nat} {c' : Value} {e : BindError} {g₁ g' : Graph} (hindex : s.selector.index? = some index)
      (grows : g.grow c index = some (c', g₁)) (other : c' ≠ c) (named : s.name ≠ "")
      (put : (r.setChild owner s.name c' (some (g₁.tagOf c'))).run g₁ = (.error e, g')) :
      GrowRun r path g owner s c (.error e) g'
  | replaced {index : Nat} {c' : Value} {g₁ g' : Graph} (hindex : s.selector.index? = some index)
      (grows : g.grow c index = some (c', g₁)) (other : c' ≠ c) (named : s.name ≠ "")
      (put : (r.setChild owner s.name c' (some (g₁.tagOf c'))).run g₁ = (.ok ⟨⟩, g')) :
      GrowRun r path g owner s c (.ok c') g'

theorem GrowRun.run_eq {owner c : Value} {s : Segment} {result : Except BindError Value}
    (h : GrowRun r path g owner s c result g') : (grow r path owner s c).run g = (result, g') := by
  unfold grow
  cases h with
  | kept why =>
    cases hindex : s.selector.index? with
    | none => rfl
    | some index => simp only [Running.run_bind, Running.run_get, why index hindex, Running.run_pure]
  | widened hindex grows =>
    simp only [hindex, Running.run_bind, Running.run_get, grows, Running.run_set, ne_eq, not_true_eq_false, if_false,
      Running.run_pure]
  | nested hindex grows other unnamed =>
    simp only [hindex, Running.run_bind, Running.run_get, grows, Running.run_set, ne_eq, other, not_false_eq_true,
      if_true, unnamed, Running.run_throw]
  | unstored hindex grows other named put =>
    simp only [hindex, Running.run_bind, Running.run_get, grows, Running.run_set, ne_eq, other, not_false_eq_true,
      if_true, named, if_false, put]
  | replaced hindex grows other named put =>
    simp only [hindex, Running.run_bind, Running.run_get, grows, Running.run_set, ne_eq, other, not_false_eq_true,
      if_true, named, if_false, Running.run_pure, put]

theorem grow_runs {owner c : Value} {s : Segment} {result : Except BindError Value}
    (h : (grow r path owner s c).run g = (result, g')) : GrowRun r path g owner s c result g' := by
  suffices total : ∃ result g', GrowRun r path g owner s c result g' by
    obtain ⟨result, g', run⟩ := total
    rw [run.run_eq] at h
    cases h
    exact run
  cases hindex : s.selector.index? with
  | none => exact ⟨_, _, .kept fun index same => by simp [hindex] at same⟩
  | some index =>
    cases grows : g.grow c index with
    | none =>
      refine ⟨_, _, .kept fun index' same => ?_⟩
      obtain rfl := Option.some.inj (hindex.symm.trans same)
      exact grows
    | some grown =>
      obtain ⟨c', g₁⟩ := grown
      by_cases other : c' = c
      · exact ⟨_, _, .widened hindex (other ▸ grows)⟩
      by_cases named : s.name = ""
      · exact ⟨_, _, .nested hindex grows other named⟩
      rcases put : (r.setChild owner s.name c' (some (g₁.tagOf c'))).run g₁ with ⟨e | u, g₂⟩
      · exact ⟨_, _, .unstored hindex grows other named put⟩
      · exact ⟨_, _, .replaced hindex grows other named put⟩

/-- The runs of `elementOrCreate`.  Brackets without a place stand for the collection itself; an element that is missing
is made for the declared type of the elements, and then put in its place. -/
inductive ElementRun (r : Registry) (path : Path) (g : Graph) (c : Value) (s : Segment) (next : Option Segment) :
    Except BindError Value → Graph → Prop where
  | placeless (hslot : s.selector.slot? = none) : ElementRun r path g c s next (.ok c) g
  | found {slot : Slot} (hslot : s.selector.slot? = some slot) (value : g.elementAt c slot ≠ .null) :
      ElementRun r path g c s next (.ok (g.elementAt c slot)) g
  | unmade {slot : Slot} {e : BindError} {g' : Graph} (hslot : s.selector.slot? = some slot)
      (missing : g.elementAt c slot = .null)
      (make : (intermediate r path (g.elementType? c) next).run g = (.error e, g')) :
      ElementRun r path g c s next (.error e) g'
  | unstored {slot : Slot} {w : Value} {e : BindError} {g' : Graph} (hslot : s.selector.slot? = some slot)
      (missing : g.elementAt c slot = .null)
      (make : (intermediate r path (g.elementType? c) next).run g = (.ok w, g'))
      (store : g'.storeElement path c slot w = .error e) : ElementRun r path g c s next (.error e) g'
  | made {slot : Slot} {w : Value} {g₁ g' : Graph} (hslot : s.selector.slot? = some slot)
      (missing : g.elementAt c slot = .null)
      (make : (intermediate r path (g.elementType? c) next).run g = (.ok w, g₁))
      (store : g₁.storeElement path c slot w = .ok g') : ElementRun r path g c s next (.ok w) g'

theorem ElementRun.run_eq {c : Value} {s : Segment} {next : Option Segment} {result : Except BindError Value}
    (h : ElementRun r path g c s next result g') : (elementOrCreate r path c s next).run g = (result, g') := by
  unfold elementOrCreate
  cases h with
  | placeless hslot =>
    simp only [hslot, Running.run_pure]
  | found hslot value =>
    simp only [hslot, Running.run_bind, Running.run_get, Value.isNull_eq_false_iff.2 value, Bool.not_false, if_true,
      Running.run_pure]
  | unmade hslot missing make =>
    simp only [hslot, Running.run_bind, Running.run_get, missing, Value.isNull, Bool.not_true, Bool.false_eq_true,
      if_false, make]
  | unstored hslot missing make store =>
    simp only [hslot, Running.run_bind, Running.run_get, missing, Value.isNull, Bool.not_true, Bool.false_eq_true,
      if_false, make, Running.run_liftExcept, store]
  | made hslot missing make store =>
    simp only [hslot, Running.run_bind, Running.run_get, missing, Value.isNull, Bool.not_true, Bool.false_eq_true,
      if_false, make, Running.run_liftExcept, store, Running.run_set, Running.run_pure]

theorem elementOrCreate_runs {c : Value} {s : Segment} {next : Option Segment} {result : Except BindError Value}
    (h : (elementOrCreate r path c s next).run g = (result, g')) : ElementRun r path g c s next result g' := by
  suffices total : ∃ result g', ElementRun r path g c s next result g' by
    obtain ⟨result, g', run⟩ := total
    rw [run.run_eq] at h
    cases h
    exact run
  cases hslot : s.selector.slot? with
  | none => exact ⟨_, _, .placeless hslot⟩
  | some slot =>
    by_cases missing : g.elementAt c slot = .null
    case neg => exact ⟨_, _, .found hslot missing⟩
    rcases make : (intermediate r path (g.elementType? c) next).run g with ⟨e | w, g₁⟩
    · exact ⟨_, _, .unmade hslot missing make⟩
    cases store : g₁.storeElement path c slot w with
    | error e => exact ⟨_, _, .unstored hslot missing make store⟩
    | ok g₂ => exact ⟨_, _, .made hslot missing make store⟩

/-! ## The way

The way is put together from segments that are passed. -/

/-- The collection in front of the brackets of a segment, with the index of the segment addressable. -/
def collect (r : Registry) (path : Path) (current : Value) (segment : Segment) (next : Option Segment) :
    Step Value := do
  grow r path current segment (← childOrCreate r path current segment next)

/-- One segment of the way: to the child of its name, and to the element at its place if it has brackets. -/
def pass (r : Registry) (path : Path) (current : Value) (segment : Segment) (next : Option Segment) :
    Step Value := do
  if !segment.isCollection then childOrCreate r path current segment next
  else elementOrCreate r path (← collect r path current segment next) segment next

theorem pass_of_plain {s : Segment} (plain : s.isCollection = false) (path : Path) (v : Value)
    (next : Option Segment) : pass r path v s next = childOrCreate r path v s next := by
  simp only [pass, plain, Bool.not_false, if_true]

theorem pass_of_collection {s : Segment} (bracketed : s.isCollection) (path : Path) (v : Value)
    (next : Option Segment) :
    pass r path v s next = collect r path v s next >>= fun c => elementOrCreate r path c s next := by
  simp only [pass, bracketed, Bool.not_true, Bool.false_eq_true, if_false]

/-- The way passes one segment after another. -/
theorem ownerFrom_cons {s : Segment} {rest : List Segment} (more : rest ≠ []) (path : Path) (v : Value) :
    ownerFrom r path v (s :: rest) = pass r path v s rest.head? >>= fun w => ownerFrom r path w rest := by
  have last : rest.isEmpty = false := by simpa using more
  rw [ownerFrom]
  by_cases bracketed : s.isCollection
  · simp only [pass_of_collection bracketed, collect, last, bracketed, Bool.false_and, Bool.not_true,
      Bool.false_eq_true, if_false, bind_assoc]
  · simp only [pass_of_plain (by simpa using bracketed), last, bracketed, Bool.false_and, Bool.not_false,
      Bool.false_eq_true, if_false, if_true]

/-- At its last segment the way stops, but if that has brackets their collection is there. -/
theorem ownerFrom_last (path : Path) (v : Value) (s : Segment) :
    ownerFrom r path v [s] = if s.isCollection then collect r path v s none >>= fun _ => pure v else pure v := by
  rw [ownerFrom]
  by_cases bracketed : s.isCollection
  · simp only [collect, bracketed, Bool.not_true, Bool.and_false, Bool.false_eq_true, if_false, if_true,
      List.isEmpty_nil, List.head?_nil, bind_assoc]
  · simp only [bracketed, Bool.not_false, List.isEmpty_nil, Bool.and_self, if_true, Bool.false_eq_true, if_false]

/-! ## At the end of the way -/

/-- The runs of `storeChild`.  A plain segment stores the value under its name, one with brackets in the collection of
its name, which is looked up once more and made large enough. -/
inductive StoreRun (r : Registry) (path : Path) (target : Option TypeTag) (g : Graph) (owner v : Value) :
    Except BindError Unit → Graph → Prop where
  | plain {result : Except BindError Unit} {g' : Graph} (plain : path.last.isCollection = false)
      (put : (r.setChild owner path.last.name v (if v.isNull then target else some (g.tagOf v))).run g = (result, g')) :
      StoreRun r path target g owner v result g'
  | placeless (bracketed : path.last.isCollection) (hslot : path.last.selector.slot? = none) :
      StoreRun r path target g owner v (.error (.shape path.text .terminalWithoutSlot)) g
  | lost {slot : Slot} {e : BindError} {g' : Graph} (bracketed : path.last.isCollection)
      (hslot : path.last.selector.slot? = some slot)
      (child : (r.child owner path.last.name).run g = (.error e, g')) : StoreRun r path target g owner v (.error e) g'
  | vanished {slot : Slot} {g' : Graph} (bracketed : path.last.isCollection)
      (hslot : path.last.selector.slot? = some slot) (child : (r.child owner path.last.name).run g = (.ok .null, g')) :
      StoreRun r path target g owner v (.error (.vanished path.last.name)) g'
  | short {slot : Slot} {c : Value} {e : BindError} {g₁ g' : Graph} (bracketed : path.last.isCollection)
      (hslot : path.last.selector.slot? = some slot)
      (child : (r.child owner path.last.name).run g = (.ok c, g₁)) (value : c ≠ .null)
      (grown : (grow r path owner path.last c).run g₁ = (.error e, g')) : StoreRun r path target g owner v (.error e) g'
  | refused {slot : Slot} {c c' : Value} {e : BindError} {g₁ g' : Graph} (bracketed : path.last.isCollection)
      (hslot : path.last.selector.slot? = some slot)
      (child : (r.child owner path.last.name).run g = (.ok c, g₁)) (value : c ≠ .null)
      (grown : (grow r path owner path.last c).run g₁ = (.ok c', g'))
      (store : g'.storeElement path c' slot v = .error e) : StoreRun r path target g owner v (.error e) g'
  | stored {slot : Slot} {c c' : Value} {g₁ g₂ g' : Graph} (bracketed : path.last.isCollection)
      (hslot : path.last.selector.slot? = some slot)
      (child : (r.child owner path.last.name).run g = (.ok c, g₁)) (value : c ≠ .null)
      (grown : (grow r path owner path.last c).run g₁ = (.ok c', g₂))
      (store : g₂.storeElement path c' slot v = .ok g') : StoreRun r path target g owner v (.ok ⟨⟩) g'

theorem storeChild_of_plain (plain : path.last.isCollection = false) (target : Option TypeTag) (owner v : Value) :
    (storeChild r path target owner v).run g =
      (r.setChild owner path.last.name v (if v.isNull then target else some (g.tagOf v))).run g := by
  simp only [storeChild, plain, Bool.not_false, if_true, Running.run_bind, Running.run_get]

theorem StoreRun.run_eq {target : Option TypeTag} {owner v : Value} {result : Except BindError Unit}
    (h : StoreRun r path target g owner v result g') : (storeChild r path target owner v).run g = (result, g') := by
  cases h with
  | plain plain put => rw [storeChild_of_plain plain, put]
  | placeless bracketed hslot =>
    simp only [storeChild, bracketed, Bool.not_true, Bool.false_eq_true, if_false, hslot, Running.run_throw]
  | lost bracketed hslot child =>
    simp only [storeChild, bracketed, Bool.not_true, Bool.false_eq_true, if_false, hslot, Running.run_bind, child]
  | vanished bracketed hslot child =>
    simp only [storeChild, bracketed, Bool.not_true, Bool.false_eq_true, if_false, hslot, Running.run_bind, child,
      Value.isNull, if_true, Running.run_throw]
  | short bracketed hslot child value grown =>
    simp only [storeChild, bracketed, Bool.not_true, Bool.false_eq_true, if_false, hslot, Running.run_bind, child,
      Value.isNull_eq_false_iff.2 value, grown]
  | refused bracketed hslot child value grown store =>
    simp only [storeChild, bracketed, Bool.not_true, Bool.false_eq_true, if_false, hslot, Running.run_bind, child,
      Value.isNull_eq_false_iff.2 value, grown, Running.run_get, Running.run_liftExcept, store]
  | stored bracketed hslot child value grown store =>
    simp only [storeChild, bracketed, Bool.not_true, Bool.false_eq_true, if_false, hslot, Running.run_bind, child,
      Value.isNull_eq_false_iff.2 value, grown, Running.run_get, Running.run_liftExcept, store, Running.run_set]

theorem storeChild_runs {target : Option TypeTag} {owner v : Value} {result : Except BindError Unit}
    (h : (storeChild r path target owner v).run g = (result, g')) : StoreRun r path target g owner v result g' := by
  suffices total : ∃ result g', StoreRun r path target g owner v result g' by
    obtain ⟨result, g', run⟩ := total
    rw [run.run_eq] at h
    cases h
    exact run
  by_cases bracketed : path.last.isCollection
  case neg => exact ⟨_, _, .plain (by simpa using bracketed) rfl⟩
  cases hslot : path.last.selector.slot? with
  | none => exact ⟨_, _, .placeless bracketed hslot⟩
  | some slot =>
    rcases child : (r.child owner path.last.name).run g with ⟨e | c, g₁⟩
    · exact ⟨_, _, .lost bracketed hslot child⟩
    by_cases missing : c = .null
    · exact ⟨_, _, .vanished bracketed hslot (missing ▸ child)⟩
    rcases grown : (grow r path owner path.last c).run g₁ with ⟨e | c', g₂⟩
    · exact ⟨_, _, .short bracketed hslot child missing grown⟩
    cases store : g₂.storeElement path c' slot v with
    | error e => exact ⟨_, _, .refused bracketed hslot child missing grown store⟩
    | ok g₃ => exact ⟨_, _, .stored bracketed hslot child missing grown store⟩

/-! ## The root -/

theorem growRoot_kept {w : Writer} {index : Nat} (why : w.graph.grow w.root index = none) :
    growRoot index w = (⟨⟩, w) := by
  simp only [growRoot, Running.state_modify, why]

theorem growRoot_grown {w : Writer} {index : Nat} {root : Value} {graph : Graph}
    (grows : w.graph.grow w.root index = some (root, graph)) : growRoot index w = (⟨⟩, { w with root, graph }) := by
  simp only [growRoot, Running.state_modify, grows]

/-- The document with a root, which is an empty collection for the brackets of a path if there was none. -/
def withRoot (w : Writer) (bracket : Option Bracket) : Writer :=
  if w.root.isNull then
    { w with root := (emptyCollection w.graph bracket).1, graph := (emptyCollection w.graph bracket).2 }
  else w

theorem withRoot_of_value {w : Writer} (value : w.root ≠ .null) (bracket : Option Bracket) :
    w.withRoot bracket = w :=
  if_neg fun missing => value (Value.isNull_iff.1 missing)

theorem withRoot_of_null {w : Writer} (missing : w.root = .null) (bracket : Option Bracket) :
    w.withRoot bracket =
      { w with root := (emptyCollection w.graph bracket).1, graph := (emptyCollection w.graph bracket).2 } :=
  if_pos (Value.isNull_iff.2 missing)

theorem ensureRoot_eq (s : Segment) (w : Writer) :
    ensureRoot s w =
      match s.selector.index? with
      | some index => growRoot index (w.withRoot s.selector.bracket?)
      | none => (⟨⟩, w.withRoot s.selector.bracket?) := by
  unfold ensureRoot
  cases s.selector.index? <;> rfl

end Writer

end FieldBinding
