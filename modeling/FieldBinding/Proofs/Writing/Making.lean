import FieldBinding.Proofs.Writing.Runs
import FieldBinding.Proofs.Writing.Trail

/-!
# Making what is missing

What the steps of the writer do to a graph, for a registry of beans.  `Writer.Obtains`, `Writer.Widens` and
`Writer.Fills` list all that one step can do, also where it fails: it changes at most one node, and only after
everything that can fail has been done.  A step that does not fail leaves a segment that leads to where the
writer has come to.

Main results:

* `Writer.childOrCreate_made` — the child of a segment is there, and is what a reader finds under its name.
* `Writer.grow_made` — the same of a collection that has been made large enough.
* `Writer.elementOrCreate_made` — an element is there, and is what a reader finds at its place.
* `Writer.storeRoot_of_slot` — what storing an element of the root does.
-/

namespace FieldBinding

open FieldBinding.Graph

variable {r : Registry} {g g₁ g' : Graph}

/-! ## Room -/

/-- Whether an index in the brackets of a segment can be made addressable: the length that it takes is a word. -/
def Segment.Roomy (s : Segment) : Prop :=
  ∀ n ∈ s.selector.index?, n + 1 < 2 ^ 64

instance (s : Segment) : Decidable s.Roomy :=
  inferInstanceAs (Decidable (∀ n ∈ s.selector.index?, n + 1 < 2 ^ 64))

/-- Whether all indexes of a path can be made addressable. -/
def Path.Roomy (p : Path) : Prop :=
  ∀ s ∈ p.segments, s.Roomy

instance (p : Path) : Decidable p.Roomy :=
  inferInstanceAs (Decidable (∀ s ∈ p.segments, s.Roomy))

theorem Segment.Roomy.hasRoom {s : Segment} (roomy : s.Roomy) {index : Nat} (h : s.selector.index? = some index)
    (items : List Value) : HasRoom items index :=
  fun _ => roomy index h

/-! ## New values -/

/-- A new value: nodes are added, and it is made of them. -/
structure Graph.Makes (g g' : Graph) (v : Value) : Prop where
  more : g.Extends g'
  closed : g'.Closed
  made : MadeSince g g' v
  value : v ≠ .null

theorem newSequence_makes (closed : g.Closed) (kind : SequenceKind) (element : TypeTag) :
    g.Makes (g.newSequence kind ⟨element, []⟩).2 (g.newSequence kind ⟨element, []⟩).1 :=
  ⟨newSequence_extends g kind _, newSequence_closed closed kind _ (by simp),
    newSequence_made (.refl g) closed (by simp), by simp [newSequence]⟩

theorem newMap_makes (closed : g.Closed) (element : TypeTag) :
    g.Makes (g.newMap ⟨element, .empty⟩).2 (g.newMap ⟨element, .empty⟩).1 :=
  ⟨newMap_extends g _, newMap_closed closed (by simp [Entries.empty]),
    newMap_made (.refl g) closed (by simp [Entries.empty]), by simp [newMap]⟩

theorem emptyCollection_makes (closed : g.Closed) (bracket : Option Bracket) :
    g.Makes (Writer.emptyCollection g bracket).2 (Writer.emptyCollection g bracket).1 := by
  unfold Writer.emptyCollection
  split
  · exact newSequence_makes closed _ _
  · exact newMap_makes closed _

theorem plant_object_makes (closed : g.Closed) (typeName : String) (members : List (String × Tree)) :
    g.Makes (g.plant (.object typeName members)).2 (g.plant (.object typeName members)).1 := by
  obtain ⟨more, closed', made⟩ := plant_made (.object typeName members) g g (.refl g) closed
  exact ⟨more, closed', made, by simp [plant, newObject]⟩

theorem newObject_makes (closed : g.Closed) (d : Descriptor) :
    g.Makes (g.newObject d.defaultObject).2 (g.newObject d.defaultObject).1 := by
  have plain : ∀ e ∈ d.defaultObject.members.toList, MadeSince g g e.2 := by
    intro e he
    obtain ⟨m, -, rfl⟩ := List.mem_map.1 (Entries.mem_ofList he)
    simp only [Descriptor.initial]
    split
    · exact .scalar g g _
    · exact .null g g
  exact ⟨newObject_extends g _, newObject_closed closed fun e he => (plain e he).has,
    newObject_made (.refl g) closed plain, by simp [newObject]⟩

/-- What is instantiated for a collection or an object is a new node. -/
theorem instantiate_makes (closed : g.Closed) {tag : TypeTag}
    (node : tag.isCollection ∨ tag.fieldType = .complex) {v : Value}
    (h : r.instantiate g tag = .ok (v, g')) : g.Makes g' v := by
  cases tag with
  | complex name =>
    simp only [Registry.instantiate] at h
    split at h
    · cases h
    split at h
    · cases h
    split at h
    · next b _ =>
      obtain ⟨rfl, rfl⟩ := Prod.mk.inj (Except.ok.inj h)
      exact plant_object_makes closed _ _
    · next d _ _ _ =>
      obtain ⟨rfl, rfl⟩ := Prod.mk.inj (Except.ok.inj h)
      exact newObject_makes closed _
  | sequence kind element =>
    obtain ⟨rfl, rfl⟩ := Prod.mk.inj (Except.ok.inj h)
    exact newSequence_makes closed kind element
  | map element =>
    obtain ⟨rfl, rfl⟩ := Prod.mk.inj (Except.ok.inj h)
    exact newMap_makes closed element
  | any =>
    obtain ⟨rfl, rfl⟩ := Prod.mk.inj (Except.ok.inj h)
    exact newMap_makes closed .any
  | _ => simp [TypeTag.isCollection, TypeTag.fieldType] at node

namespace Writer

/-- An intermediate node is a new node. -/
theorem intermediate_makes (closed : g.Closed) {path : Path} {declared : Option TypeTag}
    {next : Option Segment} {v : Value}
    (h : (intermediate r path declared next).run g = (.ok v, g')) : g.Makes g' v := by
  unfold intermediate at h
  split at h
  · cases h
    exact emptyCollection_makes closed _
  · cases h
    exact emptyCollection_makes closed _
  · split at h
    · next complex =>
      rw [Step.attempt_run] at h
      split at h
      · next made =>
        obtain ⟨hv, rfl⟩ := Prod.mk.inj h
        rw [Except.ok.inj hv] at made
        exact instantiate_makes closed (.inr complex) made
      · cases h
    · cases h

theorem newChild_makes (closed : g.Closed) {path : Path} {declared : Option TypeTag} {s : Segment}
    {next : Option Segment} {v : Value}
    (h : (newChild r path declared s next).run g = (.ok v, g')) : g.Makes g' v := by
  unfold newChild at h
  split at h
  case isFalse => exact intermediate_makes closed h
  split at h
  · next tag found =>
    rw [Step.attempt_run] at h
    split at h
    · next made =>
      cases h
      exact instantiate_makes closed (.inl (Option.filter_eq_some_iff.1 found).2) made
    · cases h
  · cases h
    exact emptyCollection_makes closed _

/-- A new node that cannot be made leaves the graph as it was. -/
theorem intermediate_error {path : Path} {declared : Option TypeTag} {next : Option Segment}
    {e : BindError} (h : (intermediate r path declared next).run g = (.error e, g')) : g' = g := by
  unfold intermediate at h
  split at h
  · cases h
  · cases h
  · split at h
    · rw [Step.attempt_run] at h
      split at h
      · cases h
      · exact (Prod.mk.inj h).2.symm
    · exact (Prod.mk.inj h).2.symm

theorem newChild_error {path : Path} {declared : Option TypeTag} {s : Segment} {next : Option Segment}
    {e : BindError} (h : (newChild r path declared s next).run g = (.error e, g')) : g' = g := by
  unfold newChild at h
  split at h
  case isFalse => exact intermediate_error h
  split at h
  · rw [Step.attempt_run] at h
    split at h
    · cases h
    · exact (Prod.mk.inj h).2.symm
  · cases h

/-! ## Storing a child -/

/-- A child that cannot be stored leaves the graph as it was. -/
theorem setChild_error {owner v : Value} {name : String} {hint : Option TypeTag} {e : BindError}
    (h : (r.setChild owner name v hint).run g = (.error e, g')) : g' = g := by
  cases Registry.setChild_runs h <;> rfl

section Bean

variable (bean : r.Bean)

include bean

/-- A child is stored in the slot that its name stands for. -/
theorem setChild_slot {owner v : Value} {name : String} {hint : Option TypeTag} (has : g.Has owner)
    (named : name ≠ "") (value : v ≠ .null)
    (h : (r.setChild owner name v hint).run g = (.ok ⟨⟩, g')) :
    ∃ label, owner.holdsNames ∧ g.Rewrites g' owner (onlyAt label v) ∧
      ∀ f : Graph, (f.node owner).kind = (g.node owner).kind →
        r.yieldAt f owner name = .ok (.held ((f.slot? owner label).getD .null)) := by
  cases Registry.setChild_runs h with
  | entry map =>
    subst map
    refine ⟨name, rfl, setEntry_rewrites has name v, fun f _ => ?_⟩
    simp only [Registry.yieldAt, named, if_false]
    rfl
  | @raw id object unknown =>
    subst object
    refine ⟨name, rfl, setMember_rewrites has name v, fun f same => ?_⟩
    have typed : (f.object id).typeName = (g.object id).typeName := NodeKind.object.inj same
    simp only [Registry.yieldAt, named, if_false, typed, unknown]
    rfl
  | skipped object known found null primitive => exact absurd null value
  | @stored id place o object known found nullable store =>
    subst object
    obtain ⟨member, stores, child⟩ := bean.place_child found
    obtain rfl := Except.ok.inj ((stores _ _).symm.trans store)
    exact ⟨member, rfl, setMember_rewrites has member v,
      fun f same => child f id named (NodeKind.object.inj same) known⟩

/-- A child that is stored is what a reader finds under its name. -/
theorem setChild_stores {owner v : Value} {name : String} {hint : Option TypeTag} (has : g.Has owner)
    (named : name ≠ "") (value : v ≠ .null)
    (h : (r.setChild owner name v hint).run g = (.ok ⟨⟩, g')) :
    ∃ label, g.Rewrites g' owner (onlyAt label v) ∧ r.yieldAt g' owner name = .ok (.held v) ∧
      owner.address? ≠ none := by
  obtain ⟨label, names, put, slot⟩ := setChild_slot bean has named value h
  refine ⟨label, put, ?_, Value.address_of_holdsNames names⟩
  rw [slot g' put.kind, put.slot, onlyAt, if_pos rfl, Option.some_or, Option.getD_some]

end Bean

/-! ## Obtaining a child -/

/-- What looking for a child, and making it if it is missing, can do. -/
inductive Obtains (r : Registry) (g : Graph) (v : Value) (s : Segment) :
    Graph → Except BindError Value → Prop where
  | found {c : Value} (arrives : r.yieldAt g v s.name = .ok (.held c)) (value : c ≠ .null) :
      Obtains r g v s g (.ok c)
  | made {g₁ g' : Graph} {c : Value} {label : String} (names : v.holdsNames)
      (missing : ∀ u, g.slot? v label = some u → u = .null) (makes : g.Makes g₁ c)
      (put : g₁.Rewrites g' v (onlyAt label c)) (arrives : r.yieldAt g' v s.name = .ok (.held c)) :
      Obtains r g v s g' (.ok c)
  | refused {g' : Graph} {e : BindError} (more : g.Extends g') (closed : g'.Closed) :
      Obtains r g v s g' (.error e)

section Bean

variable (bean : r.Bean)

include bean

theorem childOrCreate_obtains {path : Path} {v : Value} {s : Segment} {next : Option Segment}
    {result : Except BindError Value} (closed : g.Closed) (has : g.Has v) (value : v ≠ .null)
    (h : (childOrCreate r path v s next).run g = (result, g')) : Obtains r g v s g' result := by
  cases childOrCreate_runs h with
  | unnamed unnamed => exact .found (by simp [Registry.yieldAt, unnamed]) value
  | lost named child =>
    obtain rfl := Registry.child_error child
    exact .refused (.refl _) closed
  | found named child there =>
    obtain ⟨rfl, arrives⟩ := bean.child_held child
    exact .found arrives there
  | unmade named child make =>
    obtain ⟨rfl, -⟩ := bean.child_held child
    obtain rfl := newChild_error make
    exact .refused (.refl _) closed
  | unstored named child make put =>
    obtain ⟨rfl, -⟩ := bean.child_held child
    have makes := newChild_makes closed make
    exact setChild_error put ▸ .refused makes.more makes.closed
  | made named child make put =>
    obtain ⟨rfl, missing⟩ := bean.child_held child
    have makes := newChild_makes closed make
    obtain ⟨label, names, put, slot⟩ := setChild_slot bean (makes.more.has has) named makes.value put
    have before := slot _ (congrArg Node.kind (makes.more.node_eq has)).symm
    have after := slot g' put.kind
    refine .made names (fun u held => ?_) makes put ?_
    · rw [missing, held, Option.getD_some, Except.ok.injEq, Yield.held.injEq] at before
      exact before.symm
    · rw [after, put.slot, onlyAt, if_pos rfl, Option.some_or, Option.getD_some]

omit bean in
theorem Obtains.change {v : Value} {s : Segment} {result : Except BindError Value} (closed : g.Closed)
    (has : g.Has v) (obtains : Obtains r g v s g' result) : g.Change g' v := by
  cases obtains with
  | found => exact .refl closed _
  | made names missing makes put =>
    exact .of_made closed makes.more makes.closed makes.made has (Value.address_of_holdsNames names)
      put
  | refused more closed' => exact .of_extends closed more closed' v

/-- The child of a segment is there, and is what a reader finds under its name. -/
theorem childOrCreate_made {path : Path} {v c : Value} {s : Segment} {next : Option Segment}
    (closed : g.Closed) (has : g.Has v) (value : v ≠ .null)
    (h : (childOrCreate r path v s next).run g = (.ok c, g')) :
    g.Change g' v ∧ r.yieldAt g' v s.name = .ok (.held c) ∧ c ≠ .null := by
  have obtains := childOrCreate_obtains bean closed has value h
  refine ⟨obtains.change closed has, ?_⟩
  cases obtains with
  | found arrives value => exact ⟨arrives, value⟩
  | made names missing makes put arrives => exact ⟨arrives, makes.value⟩

/-- What is found on the way to a child is reached, whether the segment has a name or not. -/
theorem reaches_of_yieldAt {v c : Value} {name : String}
    (h : r.yieldAt g v name = .ok (.held c)) (value : c ≠ .null) : g.Reaches v c := by
  by_cases named : name = ""
  · simp only [Registry.yieldAt, named, if_true, Except.ok.injEq, Yield.held.injEq] at h
    exact h ▸ .refl
  · exact .single (bean.mem_children_of_yieldAt named h value)

/-- A change of a collection is not seen on the way from its owner. -/
theorem yieldAt_kept {v c : Value} {name : String} (arrives : r.yieldAt g v name = .ok (.held c))
    (has : g.Has v) (acyclic : g.Acyclic v) (value : c ≠ .null) (kept : g.SameBut g' c) :
    r.yieldAt g' v name = .ok (.held c) := by
  by_cases named : name = ""
  · simpa only [Registry.yieldAt, named, if_true] using arrives
  · have child := bean.mem_children_of_yieldAt named arrives value
    rw [bean.yieldAt_congr (kept v has (acyclic.address_ne (.single child)).symm), arrives]

end Bean

/-! ## Widening a collection -/

/-- The content of a sequence that is filled up. -/
def longer (g : Graph) (id : NodeId) (index : Nat) : Sequence :=
  { g.sequence id with items := padded (g.sequence id).items index }

theorem slot?_longer {id : NodeId} {index : Nat} (room : HasRoom (g.sequence id).items index) (kind : SequenceKind)
    (other : String) : (Node.sequence (longer g id index)).slot? other =
      (paddedAt (g.sequence id).items.length index other).or (g.slot? (.sequence kind id) other) :=
  itemAt_padded room _

/-- The ways in which a collection is made large enough. -/
theorem grow_cases {c grown : Value} {index : Nat} (h : g.grow c index = some (grown, g₁)) :
    (grown = c ∧ g₁ = g) ∨
    (∃ id, c = .sequence .list id ∧ grown = c ∧
      g₁ = g.setItems id (padded (g.sequence id).items index)) ∨
    ∃ id, c = .sequence .array id ∧ (g.sequence id).items.length ≤ index ∧
      (grown, g₁) = g.newSequence .array (longer g id index) := by
  unfold Graph.grow at h
  split at h
  · cases h
    exact .inr (.inl ⟨_, rfl, rfl, rfl⟩)
  · simp only at h
    split at h
    · cases h
      exact .inl ⟨rfl, rfl⟩
    · next short =>
      exact .inr (.inr ⟨_, rfl, Nat.le_of_not_lt short, (Option.some.inj h).symm⟩)
  · cases h

/-- A collection that stays the same value is large enough, or a list that is filled up. -/
theorem grow_same {c : Value} {index : Nat} (has : g.Has c) (h : g.grow c index = some (c, g₁)) :
    g₁ = g ∨ ∃ id, c = .sequence .list id ∧ g₁ = g.setItems id (padded (g.sequence id).items index) := by
  rcases grow_cases h with ⟨-, same⟩ | ⟨id, list, -, filled⟩ | ⟨id, array, -, new⟩
  · exact .inl same
  · exact .inr ⟨id, list, filled⟩
  · have adds := newSequence_adds g .array (longer g id index)
    rw [← new] at adds
    exact absurd has adds.new

/-- A collection that becomes another value is an array that is too short. -/
theorem grow_other {c grown : Value} {index : Nat} (other : grown ≠ c) (h : g.grow c index = some (grown, g₁)) :
    ∃ id, c = .sequence .array id ∧ (grown, g₁) = g.newSequence .array (longer g id index) := by
  rcases grow_cases h with ⟨same, -⟩ | ⟨id, -, same, -⟩ | ⟨id, array, -, new⟩
  · exact absurd same other
  · exact absurd same other
  · exact ⟨id, array, new⟩

/-- The elements of a longer array were held by the array, or are null. -/
theorem mem_children_of_padded {id : NodeId} {index : Nat} {d : Value}
    (h : d ∈ padded (g.sequence id).items index) :
    d = .null ∨ d ∈ g.children (.sequence .array id) :=
  mem_padded h

theorem adds_of_grow_other {c grown : Value} {index : Nat} (other : grown ≠ c)
    (h : g.grow c index = some (grown, g₁)) :
    ∃ id id', c = .sequence .array id ∧ grown = .sequence .array id' ∧
      g.Adds g₁ grown (.sequence (longer g id index)) := by
  obtain ⟨id, array, new⟩ := grow_other other h
  obtain ⟨rfl, rfl⟩ := Prod.mk.inj new
  exact ⟨id, _, array, rfl, newSequence_adds g .array _⟩

theorem extends_of_grow_other {c grown : Value} {index : Nat} (other : grown ≠ c)
    (h : g.grow c index = some (grown, g₁)) : g.Extends g₁ := by
  obtain ⟨id, -, new⟩ := grow_other other h
  exact (Prod.mk.inj new).2 ▸ newSequence_extends g .array _

theorem closed_of_grow_other {c grown : Value} {index : Nat} (closed : g.Closed) (has : g.Has c)
    (other : grown ≠ c) (h : g.grow c index = some (grown, g₁)) : g₁.Closed := by
  obtain ⟨id, rfl, new⟩ := grow_other other h
  rw [(Prod.mk.inj new).2]
  refine newSequence_closed closed .array _ fun d hd => ?_
  rcases mem_children_of_padded hd with rfl | child
  · trivial
  · exact closed _ d has child

/-- What making a collection of an owner large enough can do. -/
inductive Widens (r : Registry) (g : Graph) (owner : Value) (s : Segment) (c : Value) :
    Graph → Except BindError Value → Prop where
  | enough : Widens r g owner s c g (.ok c)
  | padded {id : NodeId} {index : Nat} (hindex : s.selector.index? = some index) (list : c = .sequence .list id) :
      Widens r g owner s c (g.setItems id (padded (g.sequence id).items index)) (.ok c)
  | replaced {id : NodeId} {index : Nat} {g₁ g' : Graph} {c' : Value} {label : String}
      (hindex : s.selector.index? = some index) (array : c = .sequence .array id)
      (new : (c', g₁) = g.newSequence .array (longer g id index))
      (names : owner.holdsNames) (held : g.slot? owner label = some c)
      (put : g₁.Rewrites g' owner (onlyAt label c'))
      (arrives : r.yieldAt g' owner s.name = .ok (.held c')) : Widens r g owner s c g' (.ok c')
  | refused {g' : Graph} {e : BindError} (more : g.Extends g') (closed : g'.Closed) :
      Widens r g owner s c g' (.error e)

section Bean

variable (bean : r.Bean)

include bean

theorem grow_widens {path : Path} {owner c : Value} {s : Segment} {result : Except BindError Value}
    (closed : g.Closed) (has : g.Has owner) (arrives : r.yieldAt g owner s.name = .ok (.held c))
    (value : c ≠ .null) (h : (grow r path owner s c).run g = (result, g')) :
    Widens r g owner s c g' result := by
  have has_c : g.Has c := (reaches_of_yieldAt bean arrives value).has closed has
  cases grow_runs h with
  | kept => exact .enough
  | widened hindex grows =>
    rcases grow_same has_c grows with rfl | ⟨id, list, rfl⟩
    · exact .enough
    · exact .padded hindex list
  | nested hindex grows other unnamed =>
    exact .refused (extends_of_grow_other other grows) (closed_of_grow_other closed has_c other grows)
  | unstored hindex grows other named put =>
    exact setChild_error put ▸
      .refused (extends_of_grow_other other grows) (closed_of_grow_other closed has_c other grows)
  | @replaced index c' g₁ _ hindex grows other named put =>
    have more := extends_of_grow_other other grows
    obtain ⟨id, array, new⟩ := grow_other other grows
    have node : c' ≠ .null := by simp [(Prod.mk.inj new).1]
    obtain ⟨label, names, put, slot⟩ := setChild_slot bean (more.has has) named node put
    refine .replaced hindex array new names ?_ put ?_
    · have before := slot g (congrArg Node.kind (more.node_eq has)).symm
      rw [arrives, Except.ok.injEq, Yield.held.injEq] at before
      cases held : g.slot? owner label with
      | none => exact absurd (by simpa [held] using before) value
      | some u => rw [before, held, Option.getD_some]
    · rw [slot g' put.kind, put.slot, onlyAt, if_pos rfl, Option.some_or, Option.getD_some]

omit bean in
/-- The collection is changed, or its owner. -/
theorem Widens.change {owner c : Value} {s : Segment} {result : Except BindError Value}
    (closed : g.Closed) (has : g.Has owner) (reached : g.Reaches owner c)
    (widens : Widens r g owner s c g' result) : ∃ x, g.Reaches owner x ∧ g.Change g' x := by
  cases widens with
  | enough => exact ⟨owner, .refl, .refl closed owner⟩
  | padded hindex list => exact ⟨c, reached, list ▸ .of_padded closed (list ▸ reached.has closed has) _⟩
  | replaced hindex array new names held put =>
    obtain ⟨rfl, rfl⟩ := Prod.mk.inj new
    refine ⟨owner, .refl,
      .of_newSequence closed has (Value.address_of_holdsNames names) (fun d hd => ?_) put⟩
    have child : g.Below owner c := .single ((g.mem_children_iff owner c).2 ⟨_, held⟩)
    rcases mem_children_of_padded hd with null | item
    · exact .inl null
    · exact .inr (.tail child (array ▸ item))
  | refused more closed' => exact ⟨owner, .refl, .of_extends closed more closed' owner⟩

/-- A collection that is large enough is there, and is what a reader finds under the name of its segment. -/
theorem grow_made {path : Path} {owner c c' : Value} {s : Segment} (closed : g.Closed)
    (has : g.Has owner) (acyclic : g.Acyclic owner)
    (arrives : r.yieldAt g owner s.name = .ok (.held c)) (value : c ≠ .null)
    (h : (grow r path owner s c).run g = (.ok c', g')) :
    ∃ x, g.Reaches owner x ∧ g.Change g' x ∧ r.yieldAt g' owner s.name = .ok (.held c') ∧
      c' ≠ .null := by
  have reached := reaches_of_yieldAt bean arrives value
  have widens := grow_widens bean closed has arrives value h
  obtain ⟨x, behind, change⟩ := widens.change closed has reached
  cases widens with
  | enough => exact ⟨x, behind, change, arrives, value⟩
  | @padded id index hindex list =>
    subst list
    have change := Change.of_padded closed (reached.has closed has) index
    exact ⟨_, reached, change, yieldAt_kept bean arrives has acyclic value change.kept, value⟩
  | replaced hindex array new names held put arrives' =>
    exact ⟨x, behind, change, arrives', by rw [(Prod.mk.inj new).1]; simp⟩

end Bean

/-! ## Filling an element -/

theorem slot?_of_index? {s : Segment} {n : Nat} (h : s.selector.index? = some n) :
    s.selector.slot? = some (.index n) := by
  cases selector : s.selector <;> simp_all [Selector.slot?, Selector.index?]

theorem index?_eq_some {s : Segment} {n : Nat} (h : s.selector.slot? = some (.index n)) :
    s.selector.index? = some n := by
  cases selector : s.selector <;> simp_all [Selector.slot?, Selector.index?]

/-- The place in the brackets of a segment that is neither plain nor a wildcard. -/
theorem slot?_of_single {s : Segment} (collection : s.isCollection) (single : s.isWildcard = false) :
    ∃ slot, s.selector.slot? = some slot := by
  simpa [Segment.isWildcard, collection, Segment.isIndexed, Option.isSome_iff_exists] using single

theorem slot?_eq_none {s : Segment} (plain : s.isCollection = false) :
    s.selector.slot? = none := by
  cases selector : s.selector <;>
    simp_all [Segment.isCollection, Selector.bracket?, Selector.slot?]

/-- An element is stored in the slot of its place. -/
theorem storeElement_rewrites {path : Path} {c v : Value} {slot : Slot} (has : g.Has c)
    (h : g.storeElement path c slot v = .ok g') :
    fits c slot ∧ g.Rewrites g' c (onlyAt (Graph.label slot) v) := by
  unfold storeElement at h
  split at h
  · split at h
    · next set =>
      cases h
      exact ⟨rfl, setItem?_rewrites has set⟩
    · cases h
  · next id key =>
    cases h
    exact ⟨rfl, setEntry_rewrites has key v⟩
  · next id n =>
    cases h
    exact ⟨rfl, setEntry_rewrites has (Numeral.text n) v⟩
  · cases h

theorem isCollection_of_fits {c : Value} {slot : Slot} (h : fits c slot) : c.isCollection := by
  cases c <;> cases slot <;> simp_all [fits, Value.isCollection]

theorem address_of_fits {c : Value} {slot : Slot} (h : fits c slot) : c.address? ≠ none := by
  cases c <;> cases slot <;> simp_all [fits, Value.address?]

/-- An element that is stored is what a reader finds at its place. -/
theorem storeElement_stores {path : Path} {c v : Value} {slot : Slot} (has : g.Has c)
    (h : g.storeElement path c slot v = .ok g') :
    ∃ label, g.Rewrites g' c (onlyAt label v) ∧ g'.elementAt c slot = v ∧ c.isCollection ∧
      c.address? ≠ none := by
  obtain ⟨hfits, put⟩ := storeElement_rewrites has h
  refine ⟨_, put, ?_, isCollection_of_fits hfits, address_of_fits hfits⟩
  simp [elementAt_eq, hfits, put.slot, onlyAt]

/-- What looking for an element, and making it if it is missing, can do. -/
inductive Fills (g : Graph) (c : Value) (slot : Slot) : Graph → Except BindError Value → Prop where
  | found {w : Value} (element : g.elementAt c slot = w) (value : w ≠ .null) : Fills g c slot g (.ok w)
  | made {g₁ g' : Graph} {w : Value} (fit : fits c slot)
      (missing : ∀ u, g.slot? c (Graph.label slot) = some u → u = .null) (makes : g.Makes g₁ w)
      (put : g₁.Rewrites g' c (onlyAt (Graph.label slot) w)) : Fills g c slot g' (.ok w)
  | refused {g' : Graph} {e : BindError} (more : g.Extends g') (closed : g'.Closed) :
      Fills g c slot g' (.error e)

theorem elementOrCreate_fills {path : Path} {c : Value} {s : Segment} {slot : Slot}
    {next : Option Segment} {result : Except BindError Value} (closed : g.Closed) (has : g.Has c)
    (hslot : s.selector.slot? = some slot)
    (h : (elementOrCreate r path c s next).run g = (result, g')) : Fills g c slot g' result := by
  cases elementOrCreate_runs h with
  | placeless none => simp [hslot] at none
  | found place value =>
    obtain rfl := Option.some.inj (hslot.symm.trans place)
    exact .found rfl value
  | unmade place missing make =>
    obtain rfl := intermediate_error make
    exact .refused (.refl _) closed
  | unstored place missing make store =>
    have makes := intermediate_makes closed make
    exact .refused makes.more makes.closed
  | made place missing make store =>
    obtain rfl := Option.some.inj (hslot.symm.trans place)
    have makes := intermediate_makes closed make
    obtain ⟨fit, put⟩ := storeElement_rewrites (makes.more.has has) store
    refine .made fit (fun u held => ?_) makes put
    rwa [elementAt_eq, if_pos fit, held, Option.getD_some] at missing

theorem Fills.change {c : Value} {slot : Slot} {result : Except BindError Value} (closed : g.Closed)
    (has : g.Has c) (fills : Fills g c slot g' result) : g.Change g' c := by
  cases fills with
  | found => exact .refl closed _
  | made fit missing makes put =>
    exact .of_made closed makes.more makes.closed makes.made has (address_of_fits fit) put
  | refused more closed' => exact .of_extends closed more closed' c

/-- An element is there, and is what a reader finds at its place. -/
theorem elementOrCreate_made {path : Path} {c w : Value} {s : Segment} {slot : Slot}
    {next : Option Segment} (closed : g.Closed) (has : g.Has c) (hslot : s.selector.slot? = some slot)
    (h : (elementOrCreate r path c s next).run g = (.ok w, g')) :
    g.Change g' c ∧ g'.elementAt c slot = w ∧ w ≠ .null := by
  have fills := elementOrCreate_fills closed has hslot h
  refine ⟨fills.change closed has, ?_⟩
  cases fills with
  | found element value => exact ⟨element, value⟩
  | made fit missing makes put =>
    exact ⟨by simp [elementAt_eq, fit, put.slot, onlyAt], makes.value⟩

/-! ## Storing in the root -/

/-- The document in which a place of the root is addressable. -/
def withRootPlace (w : Writer) : Slot → Writer
  | .index n => (growRoot n w).2
  | .key _ => w

/-- A segment without a place stands for the root itself. -/
theorem storeRoot_of_plain {s : Segment} (plain : s.selector.slot? = none) (path : Path) (v : Value) (w : Writer) :
    (storeRoot path s v).run w = (.ok ⟨⟩, { w with root := v }) := by
  unfold storeRoot
  simp only [plain, Running.run_modify]

/-- An element of the root is stored when its place has been made addressable. -/
theorem storeRoot_of_slot {s : Segment} {slot : Slot} (hslot : s.selector.slot? = some slot) (path : Path)
    (v : Value) (w : Writer) : (storeRoot path s v).run w =
      match (w.withRootPlace slot).graph.storeElement path (w.withRootPlace slot).root slot v with
      | .ok graph => (.ok ⟨⟩, { w.withRootPlace slot with graph })
      | .error e => (.error e, w.withRootPlace slot) := by
  unfold storeRoot
  simp only [hslot]
  cases slot with
  | key key =>
    simp only [withRootPlace, Running.run_bind, Running.run_get, Running.run_liftExcept]
    cases w.graph.storeElement path w.root (.key key) v <;> rfl
  | index n =>
    simp only [withRootPlace, Running.run_bind, Running.run_monadLift, Running.run_get, Running.run_liftExcept]
    cases (growRoot n w).2.graph.storeElement path (growRoot n w).2.root (.index n) v <;> rfl

theorem storeRoot_ok {s : Segment} {slot : Slot} (hslot : s.selector.slot? = some slot) {path : Path} {v : Value}
    {w w' : Writer} (h : (storeRoot path s v).run w = (.ok ⟨⟩, w')) :
    ∃ g, (w.withRootPlace slot).graph.storeElement path (w.withRootPlace slot).root slot v = .ok g ∧
      w' = { w.withRootPlace slot with graph := g } := by
  rw [storeRoot_of_slot hslot] at h
  cases store : (w.withRootPlace slot).graph.storeElement path (w.withRootPlace slot).root slot v with
  | error e =>
    rw [store] at h
    cases h
  | ok g =>
    rw [store] at h
    cases h
    exact ⟨g, rfl, rfl⟩

end Writer

end FieldBinding
