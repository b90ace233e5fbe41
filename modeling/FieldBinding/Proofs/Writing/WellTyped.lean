import FieldBinding.Proofs.Registry.Acceptance
import FieldBinding.Proofs.Writing.Attempts
import FieldBinding.Proofs.Writing.Laying

/-!
# Preparing respects declared types

A graph is *well typed* if what a slot holds is null or is accepted by the declared type of the slot.  Preparing
keeps a graph so, whether it succeeds or not, as long as no brackets stray: a node is made for the declared type of
its place, and a longer array has the type of the one that it takes the place of.

Where a slot is declared for a scalar there is no node to be made.  In front of a plain segment, and for an element,
that is an error, and so is a way behind a scalar that is there.  Brackets behind the name of such a slot are not
refused if it is empty, and then the graph is not well typed any more.

Main results:

* `Graph.Edits.wellTyped` — what preparing lays keeps a graph well typed, if nothing of it is stray.
* `Writer.Blocked.refused` — a path that needs a node where a scalar is declared, or is, is refused.
* `Writer.attempts_wellTyped` — attempts keep a graph well typed unless brackets stray.
-/

namespace FieldBinding

open FieldBinding.Graph

namespace Registry

variable (r : Registry)

/-- What a member holds before anything is written to it is null or of the declared type. -/
theorem accepts_initial (g : Graph) (declared : TypeTag) :
    Descriptor.initial declared = .null ∨ r.accepts declared (g.tagOf (Descriptor.initial declared)) := by
  cases declared with
  | primitive kind =>
    exact .inr (by simp [Descriptor.initial, tagOf, accepts, Scalar.kind_zero, TypeTag.primitiveKind?])
  | _ => exact .inl rfl

/-- Every slot holds null, or a value that its declared type accepts. -/
def WellTyped (g : Graph) : Prop :=
  ∀ v label u, g.Has v → g.slot? v label = some u →
    u = .null ∨ r.accepts (r.slotType (g.node v).kind label) (g.tagOf u)

theorem wellTyped_empty : r.WellTyped .empty := by
  intro v label u has held
  cases v <;> cases held

end Registry

variable {r : Registry} {g g' : Graph}

/-- What is laid in a slot is of its type, if it is not stray. -/
theorem Writer.Lays.accepted {x u : Value} {label : String} (lays : Writer.Lays r False g x label u)
    (typed : r.WellTyped g) (has : g.Has x) : r.accepts (r.slotType (g.node x).kind label) (g.tagOf u) := by
  cases lays with
  | filled missing value type =>
    rcases type with any | same
    · exact any ▸ (Registry.Fits.any_left _).accepts
    · exact same ▸ r.accepts_self _
  | strayed missing value strays => exact strays.elim
  | @lengthened old held array long type =>
    rw [type]
    refine (typed x label old has held).resolve_left ?_
    rintro rfl
    cases array

namespace Graph

section Standalone

variable (alone : r.Standalone)

include alone

/-- What a new node holds is null, or of the type of its slot. -/
theorem Blank.accepted {n : Node} (blank : Blank r g n) (typed : r.WellTyped g) {label : String} {u : Value}
    (held : n.slot? label = some u) : u = .null ∨ r.accepts (r.slotType n.kind label) (g.tagOf u) := by
  rcases blank.slot held with null | ⟨d, m, rfl, known, hm, rfl, rfl⟩ | ⟨id, has, kind, old⟩
  · exact .inl null
  · rw [Node.kind, show d.defaultObject.typeName = d.name from rfl, Registry.slotType_member alone known hm]
    exact r.accepts_initial g m.declared
  · rw [kind]
    exact typed _ label u has old

/-- One edit keeps a graph well typed, if what it lays is not stray. -/
theorem Edit.wellTyped (edit : Edit r (Writer.Lays r False) g g') (closed : g.Closed) (typed : r.WellTyped g) :
    r.WellTyped g' := by
  -- a value in a slot that was there is of the same type as before
  have kept : ∀ v label u, g.Has v → g.slot? v label = some u →
      u = .null ∨ r.accepts (r.slotType (g'.node v).kind label) (g'.tagOf u) := by
    intro v label u has held
    rw [edit.kind_eq has, tagOf_congr (edit.kind_eq (closed.has_of_slot? has held))]
    exact typed v label u has held
  intro v label u has' held
  cases edit with
  | add adds blank =>
    rcases (adds.has v).1 has' with has | new
    · rw [slot?, adds.kept v has, ← slot?] at held
      exact kept v label u has held
    · have node := (g'.node_congr new).trans adds.node
      rw [slot?, node] at held
      rw [node, tagOf_congr (congrArg Node.kind (adds.kept u (blank.has closed held)))]
      exact blank.accepted alone typed held
  | pad has collection pads =>
    rw [pads.has] at has'
    rcases pads.slot_eq held with null | held
    · exact .inl null
    · exact kept v label u has' held
  | put has there lays put =>
    rw [put.slot_eq] at held
    rw [put.has] at has'
    split at held
    case isFalse => exact kept v label u has' held
    next here =>
    rw [Option.or_eq_some_iff] at held
    rcases held with new | ⟨-, held⟩
    case inr => exact kept v label u has' held
    unfold onlyAt at new
    split at new
    case isFalse => cases new
    next same =>
    rw [Option.some.injEq] at new
    subst same new
    rw [put.kind_eq, g.node_congr here, tagOf_congr put.kind_eq]
    exact .inr (lays.accepted typed has)

/-- What preparing lays keeps a graph well typed, if nothing of it is stray. -/
theorem Edits.wellTyped (edits : Edits r (Writer.Lays r False) g g') (closed : g.Closed) (typed : r.WellTyped g) :
    r.WellTyped g' := by
  induction edits with
  | refl => exact typed
  | tail edits edit ih => exact edit.wellTyped alone (Edits.closed edits closed) ih

/-- A document that is a new object is well typed. -/
theorem newObject_wellTyped {d : Descriptor} (known : r.get? d.name = some d) :
    r.WellTyped (empty.newObject d.defaultObject).2 :=
  (Edit.add (newObject_adds empty d.defaultObject) (.object known)).wellTyped alone (by decide) r.wellTyped_empty

end Standalone

end Graph

/-! ## Slots of scalars -/

/-- A segment leads to a slot that holds nothing, and has a declared type. -/
inductive Registry.Lacks (r : Registry) (g : Graph) (owner : Value) (s : Segment) (tag : TypeTag) : Prop where
  | child (plain : s.isCollection = false) (missing : r.yieldAt g owner s.name = .ok (.held .null))
      (type : r.childType? g owner s.name none = some tag)
  | element {c : Value} {slot : Slot} (place : s.selector.slot? = some slot)
      (arrives : r.yieldAt g owner s.name = .ok (.held c)) (value : c ≠ .null)
      (missing : g.elementAt c slot = .null) (type : g.elementType? c = some tag)
  | elements {slot : Slot} {declared : TypeTag} (place : s.selector.slot? = some slot)
      (missing : r.yieldAt g owner s.name = .ok (.held .null))
      (type : r.childType? g owner s.name none = some declared) (element : declared.element? = some tag)

namespace Writer

theorem isCollection_of_slot? {s : Segment} {slot : Slot} (h : s.selector.slot? = some slot) : s.isCollection := by
  cases selector : s.selector <;> simp_all [Segment.isCollection, Selector.bracket?, Selector.slot?]

/-- No node is made where a scalar is declared. -/
theorem intermediate_scalar {path : Path} {tag : TypeTag} {kind : ScalarKind} (scalar : tag.fieldType = .scalar kind)
    (next : Option Segment) :
    (intermediate r path (some tag) next).run g = (.error (.shape path.text (.notNavigable tag)), g) := by
  cases tag with
  | primitive kind => rfl
  | scalar kind => rfl
  | _ => cases scalar

/-- An element that is missing is not made where scalars are declared. -/
theorem elementOrCreate_scalar {path : Path} {c : Value} {s : Segment} {slot : Slot} {next : Option Segment}
    {tag : TypeTag} {kind : ScalarKind} (place : s.selector.slot? = some slot) (missing : g.elementAt c slot = .null)
    (type : g.elementType? c = some tag) (scalar : tag.fieldType = .scalar kind) :
    (elementOrCreate r path c s next).run g = (.error (.shape path.text (.notNavigable tag)), g) :=
  (ElementRun.unmade place missing (type.symm ▸ intermediate_scalar scalar next)).run_eq

/-- The elements of a longer array have the type of those of the array. -/
theorem elementType?_longer {id id' : NodeId} {index : Nat}
    (kind : (g'.node (.sequence .array id')).kind = (Node.sequence (longer g id index)).kind) :
    g'.elementType? (.sequence .array id') = g.elementType? (.sequence .array id) := by
  have element : (g'.sequence id').element = (g.sequence id).element := NodeKind.sequence.inj kind
  rw [elementType?, elementType?, tagOf, tagOf, element]

/-- An element that is missing is still missing when the collection has been made large enough. -/
theorem Widens.missing {owner c c' : Value} {s : Segment} {slot : Slot} (widens : Widens r g owner s c g' (.ok c'))
    (has_c : g.Has c) (missing : g.elementAt c slot = .null) :
    g'.elementAt c' slot = .null ∧ g'.elementType? c' = g.elementType? c := by
  have filled : ∀ {old new : Option Value}, (∀ u, new = some u → u = .null ∨ old = some u) → old.getD .null = .null →
      new.getD .null = .null := by
    intro old new resized null
    cases new with
    | none => rfl
    | some u =>
      rcases resized u rfl with rfl | rfl
      · rfl
      · exact null
  cases widens with
  | enough => exact ⟨missing, rfl⟩
  | @padded id index hindex list =>
    subst list
    have pads := setItems_padded_resizes has_c index
    refine ⟨?_, elementType?_congr (pads.kind_eq _)⟩
    rw [elementAt_eq] at missing ⊢
    split
    · next fit =>
      rw [if_pos fit] at missing
      exact filled (fun u held => pads.slot _ u held) missing
    · rfl
  | @replaced id index g₁ _ _ label hindex array new names held put =>
    subst array
    have node : g'.node c' = .sequence (longer g id index) := by
      obtain ⟨rfl, rfl⟩ := Prod.mk.inj new
      have apart : (g.newSequence .array (longer g id index)).1.address? ≠ owner.address? := by
        intro same
        cases owner <;> simp_all [newSequence, Value.address?, Value.holdsNames]
      exact (put.kept _ apart).trans (node_newSequence g .array _)
    obtain ⟨id', rfl⟩ : ∃ id', c' = .sequence .array id' := ⟨_, (Prod.mk.inj new).1⟩
    refine ⟨?_, elementType?_longer (congrArg Node.kind node)⟩
    rw [elementAt_eq] at missing ⊢
    split
    · next fit =>
      have fit' : fits (.sequence .array id) slot := by cases slot <;> first | rfl | cases fit
      rw [if_pos fit'] at missing
      rw [slot?, node]
      exact filled (fun u held => itemAt_of_padded held) missing
    · rfl

/-- Brackets behind a name that is declared for a collection make an empty one. -/
theorem newChild_elements {s : Segment} {declared tag : TypeTag} {kind : ScalarKind} (path : Path)
    (next : Option Segment) (bracketed : s.isCollection) (element : declared.element? = some tag)
    (scalar : tag.fieldType = .scalar kind) :
    ∃ c g₁ n, (newChild r path (some declared) s next).run g = (.ok c, g₁) ∧ g.Adds g₁ c n ∧
      (∀ label, n.slot? label = none) ∧ g₁.elementType? c = some tag := by
  have known : (some tag).filter (· ≠ .any) = some tag := by
    cases tag <;> first | rfl | cases scalar
  cases declared with
  | sequence kind element' =>
    obtain rfl := Option.some.inj element
    refine ⟨_, _, _, by simp only [newChild, bracketed, if_true]; rfl, newSequence_adds g kind ⟨_, []⟩,
      fun _ => rfl, ?_⟩
    have type : ((g.newSequence kind ⟨element', []⟩).2.sequence g.sequences.next).element = element' :=
      congrArg Sequence.element (Store.get_push_next _ _)
    exact (congrArg (fun tag => (TypeTag.sequence kind tag).element?.filter (· ≠ .any)) type).trans known
  | map element' =>
    obtain rfl := Option.some.inj element
    refine ⟨_, _, _, by simp only [newChild, bracketed, if_true]; rfl, newMap_adds g ⟨_, .empty⟩, fun _ => rfl, ?_⟩
    have type : ((g.newMap ⟨element', .empty⟩).2.map g.maps.next).element = element' :=
      congrArg MapNode.element (Store.get_push_next _ _)
    exact (congrArg (fun tag => (TypeTag.map tag).element?.filter (· ≠ .any)) type).trans known
  | _ => cases element

/-- A segment without a name stands for the owner, whatever comes next. -/
theorem collect_unnamed {path : Path} {v : Value} {s : Segment} (unnamed : s.name = "") (next next' : Option Segment) :
    collect r path v s next = collect r path v s next' := by
  simp only [collect, childOrCreate, unnamed, if_true]

theorem collect_unnamed_ok {path : Path} {v c : Value} {s : Segment} {next : Option Segment} (unnamed : s.name = "")
    (h : (collect r path v s next).run g = (.ok c, g')) : c = v := by
  simp only [collect, childOrCreate, unnamed, if_true, Running.run_bind, Running.run_pure] at h
  cases grow_runs h with
  | kept => rfl
  | widened => rfl
  | replaced hindex grows other named => exact absurd unnamed named

/-! Behind a scalar nothing is made, whatever its slot is declared for. -/

theorem grow_of_scalar {path : Path} {owner : Value} {s : Segment} {content : Scalar} (g : Graph) :
    (grow r path owner s (.scalar content)).run g = (.ok (.scalar content), g) :=
  (GrowRun.kept fun _ _ => rfl).run_eq

/-- A scalar has no elements, and takes none. -/
theorem elementOrCreate_of_scalar {path : Path} {s : Segment} {slot : Slot} {next : Option Segment} {content : Scalar}
    (place : s.selector.slot? = some slot) (g : Graph) :
    ∃ e, ((elementOrCreate r path (.scalar content) s next).run g).1 = .error e := by
  have missing : ∀ slot, g.elementAt (.scalar content) slot = .null := fun slot => by cases slot <;> rfl
  have refused : ∀ (g₁ g₂ : Graph) (slot : Slot) (w : Value),
      g₁.storeElement path (.scalar content) slot w ≠ .ok g₂ := fun g₁ g₂ slot w => by cases slot <;> nofun
  generalize h : (elementOrCreate r path (.scalar content) s next).run g = answer
  obtain ⟨e | w, g'⟩ := answer
  · exact ⟨e, rfl⟩
  cases elementOrCreate_runs h with
  | placeless none => simp [place] at none
  | found place value => exact absurd (missing _) value
  | made place missing make store => exact absurd store (refused _ _ _ _)

theorem pass_of_scalar {path : Path} {v : Value} {s : Segment} {slot : Slot} {next : Option Segment} {content : Scalar}
    (place : s.selector.slot? = some slot)
    (child : (childOrCreate r path v s next).run g = (.ok (.scalar content), g')) :
    ∃ e, ((pass r path v s next).run g).1 = .error e := by
  simp only [pass, collect, isCollection_of_slot? place, Bool.not_true, Bool.false_eq_true, if_false,
    Running.run_bind, child, grow_of_scalar]
  exact elementOrCreate_of_scalar place g'

/-- Nor has it children. -/
theorem ownerFrom_of_scalar {path : Path} {s : Segment} {rest : List Segment} {content : Scalar} (named : s.name ≠ "")
    (more : rest ≠ [] ∨ s.isCollection) :
    ∃ e, ((ownerFrom r path (.scalar content) (s :: rest)).run g).1 = .error e := by
  have on : (rest.isEmpty && !s.isCollection) = false := by
    rcases more with more | bracketed
    · simp [more]
    · simp [bracketed]
  rw [ownerFrom]
  simp only [on, Bool.false_eq_true, if_false, Running.run_bind, childOrCreate, named, Registry.child_run,
    Registry.yieldAt]
  exact ⟨_, rfl⟩

/-- Where the way has stopped at a segment, the child of its name is found as it was. -/
theorem childOrCreate_of_stops {path : Path} {v c : Value} {s : Segment} {next : Option Segment}
    (stops : (ownerFrom r path v [stem s]).run g = (.ok v, g')) (value : c ≠ .null)
    (arrives : r.yieldAt g' v s.name = .ok (.held c)) :
    ∃ g₁, (childOrCreate r path v s next).run g = (.ok c, g₁) := by
  by_cases named : s.name = ""
  · simp only [Registry.yieldAt, named, if_true, Except.ok.injEq, Yield.held.injEq] at arrives
    exact ⟨g, arrives ▸ (ChildRun.unnamed named).run_eq⟩
  · rw [ownerFrom_last, stem_of_named named] at stops
    cases stops
    exact ⟨g, childOrCreate_of_found arrives value⟩

/-- The way does not go on where a segment is not passed. -/
theorem ownerFrom_of_pass {path : Path} {v : Value} {s : Segment} {rest : List Segment} (more : rest ≠ [])
    (h : ∃ e, ((pass r path v s rest.head?).run g).1 = .error e) :
    ∃ e, ((ownerFrom r path v (s :: rest)).run g).1 = .error e := by
  obtain ⟨e, refused⟩ := h
  rw [ownerFrom_cons more, Running.run_bind]
  generalize (pass r path v s rest.head?).run g = passed at refused
  obtain ⟨answer, g₁⟩ := passed
  simp only at refused
  simp only [refused]
  exact ⟨e, rfl⟩

section Standalone

variable (alone : r.Standalone)

include alone

/-- Behind a collection that lacks an element nothing is passed where scalars are declared. -/
theorem pass_elements {path : Path} {v c : Value} {s : Segment} {slot : Slot} {next : Option Segment}
    {tag : TypeTag} {kind : ScalarKind} {g₁ : Graph} (closed : g₁.Closed) (has : g₁.Has v)
    (place : s.selector.slot? = some slot) (child : (childOrCreate r path v s next).run g = (.ok c, g₁))
    (arrives : r.yieldAt g₁ v s.name = .ok (.held c)) (value : c ≠ .null) (missing : g₁.elementAt c slot = .null)
    (type : g₁.elementType? c = some tag) (scalar : tag.fieldType = .scalar kind) :
    ∃ e, ((pass r path v s next).run g).1 = .error e := by
  have has_c : g₁.Has c := (reaches_of_yieldAt alone.bean arrives value).has closed has
  simp only [pass, collect, isCollection_of_slot? place, Bool.not_true, Bool.false_eq_true, if_false,
    Running.run_bind, child]
  generalize hgrow : (grow r path v s c).run g₁ = grown
  obtain ⟨e | c', g₂⟩ := grown
  · exact ⟨e, rfl⟩
  · obtain ⟨missing', type'⟩ :=
      (grow_widens alone.bean closed has arrives value hgrow).missing has_c missing
    simp only [elementOrCreate_scalar place missing' (type'.trans type) scalar]
    exact ⟨_, rfl⟩

/-- Where a collection is declared and nothing is there, brackets make an empty collection if they make anything. -/
theorem childOrCreate_elements {path : Path} {v : Value} {s : Segment} {next : Option Segment} {declared tag : TypeTag}
    {kind : ScalarKind} (closed : g.Closed) (has : g.Has v) (value : v ≠ .null) (named : s.name ≠ "")
    (bracketed : s.isCollection) (missing : r.yieldAt g v s.name = .ok (.held .null))
    (type : r.childType? g v s.name none = some declared) (element : declared.element? = some tag)
    (scalar : tag.fieldType = .scalar kind) {c : Value} {g₁ : Graph}
    (h : (childOrCreate r path v s next).run g = (.ok c, g₁)) :
    g₁.Closed ∧ g₁.Has v ∧ r.yieldAt g₁ v s.name = .ok (.held c) ∧ c ≠ .null ∧
      (∀ slot, g₁.elementAt c slot = .null) ∧ g₁.elementType? c = some tag := by
  obtain ⟨change, arrives, c_value⟩ := childOrCreate_made alone.bean closed has value h
  obtain ⟨g₂, make, hset⟩ := childOrCreate_of_missing named missing h
  rw [type] at make
  obtain ⟨c', g₃, n, hmade, adds, empty, elementType⟩ :=
    newChild_elements (r := r) (g := g) path next bracketed element scalar
  cases hmade.symm.trans make
  -- the new collection is no node that was there, so storing it does not change it
  have kept : g₁.node c = g₂.node c := by
    rcases setChild_cases alone ((adds.has v).2 (.inl has)) hset with ⟨rfl, -⟩ | ⟨label, -, put, -⟩
    · rfl
    · exact put.kept c fun same => adds.address_ne has same.symm
  refine ⟨change.closed, change.has v has, arrives, c_value, fun slot => ?_,
    (elementType?_congr (congrArg Node.kind kept)).trans elementType⟩
  rw [elementAt_eq, slot?, kept, adds.node, empty]
  split <;> rfl

/-- Nothing is passed where a scalar is declared and nothing is there. -/
theorem pass_scalar {path : Path} {v : Value} {s : Segment} {next : Option Segment} {tag : TypeTag}
    {kind : ScalarKind} (closed : g.Closed) (has : g.Has v) (value : v ≠ .null) (lacks : r.Lacks g v s tag)
    (scalar : tag.fieldType = .scalar kind) : ∃ e, ((pass r path v s next).run g).1 = .error e := by
  have named : r.yieldAt g v s.name = .ok (.held .null) → s.name ≠ "" := fun missing unnamed => by
    simp only [Registry.yieldAt, unnamed, if_true, Except.ok.injEq, Yield.held.injEq] at missing
    exact value missing
  cases lacks with
  | child plain missing type =>
    have make : (newChild r path (r.childType? g v s.name none) s next).run g =
        (.error (.shape path.text (.notNavigable tag)), g) := by
      rw [newChild, plain, type]
      exact intermediate_scalar scalar next
    rw [pass_of_plain plain, (ChildRun.unmade (named missing) (Registry.child_of_held missing) make).run_eq]
    exact ⟨_, rfl⟩
  | element place arrives c_value missing type =>
    exact pass_elements alone closed has place (childOrCreate_of_found arrives c_value) arrives c_value missing type
      scalar
  | elements place missing type element =>
    have bracketed := isCollection_of_slot? place
    generalize child : (childOrCreate r path v s next).run g = created
    obtain ⟨e | c, g₁⟩ := created
    · simp only [pass, collect, bracketed, Bool.not_true, Bool.false_eq_true, if_false, Running.run_bind, child]
      exact ⟨e, rfl⟩
    · obtain ⟨closed₁, has₁, arrives, c_value, empty, type₁⟩ :=
        childOrCreate_elements alone closed has value (named missing) bracketed missing type element scalar child
      exact pass_elements alone closed₁ has₁ place child arrives c_value (empty _) type₁ scalar

/-- Nor is anything passed if the way has stopped at the segment before. -/
theorem pass_scalar_of_stops {path : Path} {v : Value} {s : Segment} {next : Option Segment} {tag : TypeTag}
    {kind : ScalarKind} (closed : g'.Closed) (has : g'.Has v) (value : v ≠ .null)
    (stops : (ownerFrom r path v [stem s]).run g = (.ok v, g')) (lacks : r.Lacks g' v s tag)
    (scalar : tag.fieldType = .scalar kind) : ∃ e, ((pass r path v s next).run g).1 = .error e := by
  rw [ownerFrom_last] at stops
  by_cases named : s.name ≠ ""
  · rw [stem_of_named named] at stops
    cases stops
    exact pass_scalar alone closed has value lacks scalar
  -- the brackets of a segment without a name stand behind the owner itself
  have unnamed : s.name = "" := not_not.1 named
  have itself : ∀ {c}, r.yieldAt g' v s.name = .ok (.held c) → c = v := fun arrives => by
    simp only [Registry.yieldAt, unnamed, if_true, Except.ok.injEq, Yield.held.injEq] at arrives
    exact arrives.symm
  cases lacks with
  | child plain missing => exact absurd (itself missing).symm value
  | elements place missing => exact absurd (itself missing).symm value
  | element place arrives c_value missing type =>
    obtain rfl := itself arrives
    have bracketed := isCollection_of_slot? place
    rw [stem, if_pos unnamed, if_pos bracketed, collect_unnamed unnamed none next] at stops
    obtain ⟨c, g₁, collected, stays⟩ := Running.run_bind_ok stops
    cases stays
    obtain rfl := collect_unnamed_ok unnamed collected
    simp only [pass_of_collection bracketed, Running.run_bind, collected,
      elementOrCreate_scalar place missing type scalar]
    exact ⟨_, rfl⟩

/-- On the way of a path a node is needed where nothing is and a scalar is declared, for an element of the root or
behind the owner of a segment; or a scalar is there, and the way goes on behind it. -/
inductive Blocked (r : Registry) (w : Writer) (path : Path) : Prop where
  | root {slot : Slot} {w' : Writer} {tag : TypeTag} {kind : ScalarKind}
      (place : path.head.selector.slot? = some slot) (more : path.tail ≠ [])
      (rooted : (prepare r ⟨path.head, []⟩).run w = (.ok none, w')) (missing : w'.graph.elementAt w'.root slot = .null)
      (type : w'.graph.elementType? w'.root = some tag) (scalar : tag.fieldType = .scalar kind)
  | below {front rest : List Segment} {s : Segment} {owner : Value} {w' : Writer} {tag : TypeTag} {kind : ScalarKind}
      (tail : path.tail = front ++ s :: rest) (more : rest ≠ [])
      (owned : (prepare r (ownerPath path front s)).run w = (.ok (some owner), w'))
      (lacks : r.Lacks w'.graph owner s tag) (scalar : tag.fieldType = .scalar kind)
  | occupied {front rest : List Segment} {s : Segment} {slot : Slot} {owner : Value} {w' : Writer} {content : Scalar}
      (tail : path.tail = front ++ s :: rest) (more : rest ≠ []) (place : s.selector.slot? = some slot)
      (owned : (prepare r (ownerPath path front s)).run w = (.ok (some owner), w'))
      (arrives : r.yieldAt w'.graph owner s.name = .ok (.held (.scalar content)))
  | behind {front rest : List Segment} {s : Segment} {w' : Writer} {content : Scalar}
      (tail : path.tail = front ++ s :: rest) (named : s.name ≠ "") (more : rest ≠ [] ∨ s.isCollection)
      (owned : (prepare r (ownerPath path front s)).run w = (.ok (some (.scalar content)), w'))

/-- A path is refused if it is blocked. -/
theorem Blocked.refused {path : Path} {w : Writer} (blocked : Blocked r w path) (closed : w.graph.Closed)
    (has : w.graph.Has w.root) : ∃ e, ((prepare r path).run w).1 = .error e := by
  by_cases wild : path.hasWildcard
  · exact ⟨_, congrArg Prod.fst (prepare_of_wild r wild w)⟩
  have single : path.hasWildcard = false := by simpa using wild
  cases blocked with
  | @root _ w₁ _ _ place more rooted missing type scalar =>
    have head : Path.hasWildcard ⟨path.head, []⟩ = false := by
      simpa [Path.hasWildcard, Path.segments] using Path.single_of_mem single List.mem_cons_self
    generalize ensured : ensureRoot path.head w = answer
    obtain ⟨⟨⟩, w₂⟩ := answer
    rw [prepare_of_root head rfl ensured] at rooted
    cases rooted
    have refused : (elementOrCreate r path w₁.root path.head path.tail.head?).run w₁.graph = _ :=
      elementOrCreate_scalar place missing type scalar
    generalize hreach : (reach r path w₁.root).run w₁.graph = reached
    obtain ⟨answer, g₁⟩ := reached
    have prepared := prepare_of_reach single more ensured hreach
    rw [reach_eq, Running.run_bind, start, if_pos (isCollection_of_slot? place), refused] at hreach
    cases hreach
    exact ⟨_, congrArg Prod.fst prepared⟩
  | below tail more owned lacks scalar =>
    have laid : Edits r (Lays r True) _ _ ∧ _ := prepare_edits alone closed has (fun _ => trivial) owned
    obtain ⟨has', value⟩ := laid.2 _ rfl
    obtain ⟨g₀, stops, continues⟩ := prepare_of_front single tail owned
    -- the last segment of the path to the owner has not been passed, so nothing has been laid there yet
    obtain ⟨e, refused⟩ := ownerFrom_of_pass more
      (pass_scalar_of_stops alone (laid.1.closed closed) has' value stops lacks scalar)
    exact ⟨e, by rw [continues, refused]; rfl⟩
  | occupied tail more place owned arrives =>
    obtain ⟨g₀, stops, continues⟩ := prepare_of_front single tail owned
    obtain ⟨g₁, child⟩ := childOrCreate_of_stops stops (by simp) arrives
    obtain ⟨e, refused⟩ := ownerFrom_of_pass more (pass_of_scalar place child)
    exact ⟨e, by rw [continues, refused]; rfl⟩
  | behind tail named more owned =>
    obtain ⟨g₀, stops, continues⟩ := prepare_of_front single tail owned
    obtain ⟨e, refused⟩ := ownerFrom_of_scalar named more
    exact ⟨e, by rw [continues, refused]; rfl⟩

/-! ## Attempts -/

/-- An attempt keeps a document well typed, unless brackets of its path stray. -/
theorem Performs.wellTyped {zone : Zone} {attempt : Attempt} {w w' : Writer} {result : Except BindError Unit}
    (performs : Performs r zone w attempt result w') (closed : w.graph.Closed) (has : w.graph.Has w.root)
    (straight : ¬Astray r w attempt.path) (typed : r.WellTyped w.graph) : r.WellTyped w'.graph := by
  have prepared : ∀ {answer w₁}, (prepare r attempt.path).run w = (answer, w₁) → r.WellTyped w₁.graph :=
    fun prepares => (prepare_edits alone closed has straight prepares).1.wellTyped alone closed typed
  cases performs with
  | prepared prepares => exact prepared prepares
  | unprepared prepares => exact prepared prepares
  | populated prepares populates =>
    rw [(populate_document alone.bean populates).1]
    exact prepared prepares

/-- Attempts keep a document well typed, whatever becomes of each of them, unless brackets of a path stray.  A path is
refused if it needs a node in an empty slot that is declared for a scalar, other than the slot in front of brackets, or
if it goes on behind a scalar.  It may end right behind one, since nothing is made for its last segment. -/
theorem attempts_wellTyped (zone : Zone) {w : Writer} (closed : w.graph.Closed) (has : w.graph.Has w.root)
    (typed : r.WellTyped w.graph) :
    (∀ attempts : List Attempt,
      (∀ front attempt back, attempts = front ++ attempt :: back →
        ¬Astray r (afterAttempts r zone w front) attempt.path) →
      r.WellTyped (afterAttempts r zone w attempts).graph) ∧
    ∀ path, Blocked r w path → ∃ e, ((prepare r path).run w).1 = .error e := by
  refine ⟨fun attempts => ?_, fun path blocked => blocked.refused alone closed has⟩
  induction attempts generalizing w with
  | nil => exact fun _ => typed
  | cons attempt rest ih =>
    intro straight
    have performs := perform_performs r zone attempt w
    have enriches := performs.enriches alone.bean closed has
    exact ih enriches.graph.closed enriches.has
      (performs.wellTyped alone closed has (straight [] attempt rest rfl) typed)
      fun front next back split => straight (attempt :: front) next back (by rw [split]; rfl)

end Standalone

/-- A list of strings is made long enough, and behind one of its elements there is nothing. -/
theorem attempts_wellTyped_names :
    let row := (Descriptor.ofName "Row").addField "names" (.sequence .list (.scalar .string))
    let r := Registry.ofList [row]
    let document := Graph.empty.newObject row.defaultObject
    let w : Writer := { graph := document.2, root := document.1 }
    let names (n : Nat) : Segment := ⟨"names", .element .list (some n), false⟩
    let below : Path := ⟨.root, [names 0, .field "first"]⟩
    let attempts : List Attempt := [.prepare ⟨.root, [names 1]⟩, .prepare below]
    (r.Standalone ∧ w.graph.Closed ∧ w.graph.Has w.root ∧ r.WellTyped w.graph ∧
      (∀ front attempt back, attempts = front ++ attempt :: back →
        ¬Astray r (afterAttempts r .utc w front) attempt.path) ∧ Blocked r w below) ∧
      r.WellTyped (afterAttempts r .utc w attempts).graph ∧ ∃ e, ((prepare r below).run w).1 = .error e := by
  intro row r document w names below attempts
  have alone : r.Standalone := Registry.single_field_standalone "Row" "names" _
  have closed : w.graph.Closed := by decide
  have has : w.graph.Has w.root := by decide
  have typed : r.WellTyped w.graph := newObject_wellTyped (d := row) alone rfl
  have owned : (prepare r ⟨.root, [.field "names"]⟩).run w = (.ok (some (.object 0)), w) := by cbv
  have type : r.childType? w.graph (.object 0) "names" none = some (.sequence .list (.scalar .string)) := by cbv
  have blocked : Blocked r w below := by
    have tail : below.tail = [] ++ names 0 :: [.field "first"] := rfl
    have scalar : (TypeTag.scalar .string).fieldType = .scalar .string := rfl
    exact .below tail (by decide) owned (.elements rfl (by cbv) type rfl) scalar
  -- the only brackets stand behind a name that is declared for a list
  have plain : ∀ (v : Writer) (n : Nat) (rest : List Segment), (∀ s ∈ rest, s.isCollection = false) →
      (prepare r ⟨.root, [.field "names"]⟩).run v = (.ok (some (.object 0)), v) →
      r.childType? v.graph (.object 0) "names" none = some (.sequence .list (.scalar .string)) →
      ¬Astray r v ⟨.root, names n :: rest⟩ := by
    rintro v n rest plain owned type ⟨front, s, back, owner, v', tail, owned', strays⟩
    cases front with
    | nil =>
      obtain ⟨rfl, rfl⟩ := List.cons.inj tail
      obtain ⟨answer, rfl⟩ := Prod.mk.inj (owned.symm.trans owned')
      obtain rfl := Option.some.inj (Except.ok.inj answer)
      obtain ⟨tag, type', -, single⟩ := strays.misfit
      rw [type] at type'
      cases type'
      cases single
    | cons t front =>
      obtain ⟨-, rfl⟩ := List.cons.inj tail
      exact absurd strays.bracketed (by simp [plain s (by simp)])
  have straight : ∀ front attempt back, attempts = front ++ attempt :: back →
      ¬Astray r (afterAttempts r .utc w front) attempt.path := by
    intro front attempt back split
    rcases front with _ | ⟨first, _ | ⟨second, front⟩⟩ <;>
      simp only [attempts, List.nil_append, List.cons_append, List.cons.injEq] at split
    · obtain ⟨rfl, -⟩ := split
      exact plain w 1 [] (by simp) owned type
    · obtain ⟨rfl, rfl, -⟩ := split
      exact plain _ 0 [.field "first"] (by simp; rfl) (by cbv) (by cbv)
    · simp at split
  have kept := attempts_wellTyped alone .utc closed has typed
  exact ⟨⟨alone, closed, has, typed, straight, blocked⟩, kept.1 attempts straight, kept.2 below blocked⟩

/-- Brackets behind the name of a string are not refused, and put an array in its place. -/
theorem prepare_brackets_of_string :
    let row := (Descriptor.ofName "Row").addField "name" (.scalar .string)
    let r := Registry.ofList [row]
    let document := Graph.empty.newObject row.defaultObject
    let w : Writer := { graph := document.2, root := document.1 }
    let path : Path := ⟨.root, [⟨"name", .element .array (some 0), false⟩, .field "first"]⟩
    Path.parse "/name[0]/first" = .ok path ∧ path.hasWildcard = false ∧ r.Standalone ∧ r.WellTyped w.graph ∧
      ((prepare r path).run w).1 = .ok (some (.map 0)) ∧ ¬r.WellTyped ((prepare r path).run w).2.graph := by
  intro row r document w path
  have alone : r.Standalone := Registry.single_field_standalone "Row" "name" _
  have typed : r.WellTyped w.graph := newObject_wellTyped (d := row) alone rfl
  have held : ((prepare r path).run w).2.graph.slot? (.object 0) "name" = some (.sequence .array 1) := by cbv
  have refused : r.accepts (r.slotType (((prepare r path).run w).2.graph.node (.object 0)).kind "name")
      (((prepare r path).run w).2.graph.tagOf (.sequence .array 1)) = false := by cbv
  refine ⟨by cbv, rfl, alone, typed, by cbv, fun typed' => ?_⟩
  rcases typed' (.object 0) "name" _ (by cbv) held with missing | accepted
  · cases missing
  · cases refused.symm.trans accepted

end Writer

end FieldBinding
