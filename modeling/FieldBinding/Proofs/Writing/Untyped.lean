import FieldBinding.Proofs.Graph.Ahead
import FieldBinding.Proofs.Writing.Making

/-!
# Writing without types

In the empty registry every object is one of a type that is not registered.  A name stands for a slot, a new node
is empty, and every step of the writer depends on little more than the kinds of nodes.

Main results:

* `Registry.child_empty`, `Registry.setChild_empty` — a child is the value in a slot.
* `Writer.newChild_alike`, `Writer.intermediate_alike` — in two graphs with the same handles the same new node is
  made, or none.
-/

namespace FieldBinding

open FieldBinding.Graph

/-! ## What depends on the kind of a node only -/

section Kind

variable {g f : Graph} {v : Value} (kind : (f.node v).kind = (g.node v).kind)

include kind

theorem Graph.tagOf_congr : f.tagOf v = g.tagOf v := by
  cases v <;> simp_all [node, Node.kind, tagOf]

theorem Graph.elementType?_congr : f.elementType? v = g.elementType? v := by
  rw [elementType?, elementType?, tagOf_congr kind]

theorem Registry.childType?_congr (r : Registry) (name : String) (hint : Option TypeTag) :
    r.childType? f v name hint = r.childType? g v name hint := by
  cases v <;> simp_all [node, Node.kind, childType?]

end Kind

/-! ## Children -/

namespace Registry

theorem lineage_empty (typeName : String) : empty.lineage typeName = [] := by
  have missing : empty.get? typeName = none := rfl
  rw [lineage, walk, dif_neg (List.not_mem_nil)]
  split
  · rw [walk]
  · next found =>
    rw [missing] at found
    cases found

/-- Nothing is declared. -/
theorem declared?_empty (typeName field : String) : empty.declared? typeName field = none := by
  simp [declared?, getter?, setter, settersOf, member?, lineage_empty, Except.toOption]

variable (g : Graph) (v : Value) (name : String)

/-- The child of a value is what its slot holds. -/
theorem yieldAt_empty : empty.yieldAt g v name =
    if name = "" then .ok (.held v)
    else if v.holdsNames then .ok (.held ((g.slot? v name).getD .null))
    else .error (.noAccessor v.kindName name) := by
  unfold yieldAt
  split
  · rfl
  · cases v <;> rfl

theorem child_empty : (empty.child v name).run g =
    (if name = "" then .ok v
      else if v.holdsNames then .ok ((g.slot? v name).getD .null)
      else .error (.noAccessor v.kindName name), g) := by
  rw [child_run, yieldAt_empty]
  by_cases named : name = ""
  · simp only [named, if_true, Step.ofYield_held]
  · by_cases names : v.holdsNames
    · simp only [named, names, if_false, if_true, Step.ofYield_held]
    · simp only [named, names, if_false, Bool.false_eq_true]

variable {v name} in
theorem child_empty_of_names (named : name ≠ "") (names : v.holdsNames) :
    (empty.child v name).run g = (.ok ((g.slot? v name).getD .null), g) := by
  rw [child_empty, if_neg named, if_pos names]

variable {v name} in
theorem child_empty_error (named : name ≠ "") (names : ¬v.holdsNames) :
    (empty.child v name).run g = (.error (.noAccessor v.kindName name), g) := by
  rw [child_empty, if_neg named, if_neg names]

theorem requirePlace_empty (hint : Option TypeTag) :
    empty.requirePlace g v name hint = .ok () := by
  cases v <;> rfl

variable {g v} in
/-- A child is stored in its slot. -/
theorem setChild_empty (has : g.Has v) (names : v.holdsNames) (name : String) (c : Value)
    (hint : Option TypeTag) : ∃ g', (empty.setChild v name c hint).run g = (.ok ⟨⟩, g') ∧
      g.Rewrites g' v (onlyAt name c) := by
  cases v with
  | map id => exact ⟨_, rfl, setEntry_rewrites has name c⟩
  | object id => exact ⟨_, rfl, setMember_rewrites has name c⟩
  | _ => cases names

variable {v} in
theorem setChild_empty_error (names : ¬v.holdsNames) (c : Value) (hint : Option TypeTag) :
    (empty.setChild v name c hint).run g = (.error (.noAccessor v.kindName name), g) := by
  cases v with
  | map id => simp [Value.holdsNames] at names
  | object id => simp [Value.holdsNames] at names
  | _ => rfl

variable {g v} in
/-- A child is stored only where there are names. -/
theorem setChild_empty_ok (has : g.Has v) {name : String} {c : Value} {hint : Option TypeTag}
    (h : (empty.setChild v name c hint).run g = (.ok ⟨⟩, g')) : v.holdsNames ∧ g.Rewrites g' v (onlyAt name c) := by
  by_cases names : v.holdsNames
  · obtain ⟨g₁, set, put⟩ := setChild_empty has names name c hint
    rw [set] at h
    cases h
    exact ⟨names, put⟩
  · rw [setChild_empty_error g name names] at h
    cases h

end Registry

/-! ## Elements -/

/-- Why a value cannot be stored at a place. -/
def Graph.misfit (g : Graph) (path : Path) (c : Value) (slot : Slot) : BindError :=
  match c, slot with
  | .sequence _ id, .index n => .shape path.text (.pastEnd n (g.sequence id).items.length)
  | _, _ => .shape path.text (.cannotHold (g.tagOf c) slot)

/-- Whether a collection has a place for a slot. -/
def Graph.Takes (g : Graph) (c : Value) (slot : Slot) : Prop :=
  fits c slot ∧ (c.holdsNames ∨ (g.slot? c (label slot)).isSome)

theorem Graph.storeElement_takes {g : Graph} {c : Value} {slot : Slot} (path : Path)
    (has : g.Has c) (takes : g.Takes c slot) (v : Value) :
    ∃ g', g.storeElement path c slot v = .ok g' ∧ g.Rewrites g' c (onlyAt (label slot) v) := by
  obtain ⟨hfits, there⟩ := takes
  cases c with
  | sequence kind id =>
    cases slot with
    | key key => cases hfits
    | index n =>
      have bound : n < (g.sequence id).items.length := by
        simpa [Value.holdsNames, label, slot?_sequence_text] using there
      obtain ⟨g', set⟩ : ∃ g', g.setItem? id n v = some g' := by simp [setItem?, bound]
      exact ⟨g', by simp [storeElement, set], setItem?_rewrites has set⟩
  | map id => cases slot <;> exact ⟨_, rfl, setEntry_rewrites has _ v⟩
  | _ => cases hfits

theorem Graph.storeElement_misfit {g : Graph} {c : Value} {slot : Slot} (path : Path)
    (takes : ¬g.Takes c slot) (v : Value) :
    g.storeElement path c slot v = .error (g.misfit path c slot) := by
  cases c with
  | sequence kind id =>
    cases slot with
    | key key => rfl
    | index n =>
      have bound : ¬n < (g.sequence id).items.length := by
        simpa [Takes, fits, Value.holdsNames, label, slot?_sequence_text] using takes
      simp [storeElement, setItem?, bound, misfit]
  | map id => cases slot <;> simp [Takes, fits, Value.holdsNames] at takes
  | _ => cases slot <;> rfl

/-! ## New nodes -/

section Next

variable {g f : Graph} (has : ∀ v, f.Has v ↔ g.Has v)

include has

/-- Where the same handles are valid the same handle is next. -/
theorem Graph.next_sequence_eq : f.sequences.next = g.sequences.next :=
  Nat.le_antisymm
    (Nat.le_of_not_lt fun lt => Nat.lt_irrefl _ ((has (.sequence .list g.sequences.next)).1 lt))
    (Nat.le_of_not_lt fun lt => Nat.lt_irrefl _ ((has (.sequence .list f.sequences.next)).2 lt))

theorem Graph.next_map_eq : f.maps.next = g.maps.next :=
  Nat.le_antisymm
    (Nat.le_of_not_lt fun lt => Nat.lt_irrefl _ ((has (.map g.maps.next)).1 lt))
    (Nat.le_of_not_lt fun lt => Nat.lt_irrefl _ ((has (.map f.maps.next)).2 lt))

theorem Graph.newSequence_handle (kind : SequenceKind) (n m : Sequence) :
    (f.newSequence kind m).1 = (g.newSequence kind n).1 := by
  simp [newSequence, next_sequence_eq has]

theorem Graph.newMap_handle (n m : MapNode) : (f.newMap m).1 = (g.newMap n).1 := by
  simp [newMap, next_map_eq has]

end Next

/-- A computation makes the same empty node in two graphs with the same handles, or fails in both. -/
def Step.Alike (x : Step Value) : Prop :=
  ∀ g f : Graph, (∀ v, f.Has v ↔ g.Has v) →
    (∃ e, x.run g = (.error e, g) ∧ x.run f = (.error e, f)) ∨
    ∃ c n g₁ f₁, x.run g = (.ok c, g₁) ∧ x.run f = (.ok c, f₁) ∧ g.Adds g₁ c n ∧ f.Adds f₁ c n ∧
      ∀ label, n.slot? label = none

namespace Step.Alike

theorem throw (e : BindError) : Alike (throw e) :=
  fun _ _ _ => .inl ⟨e, rfl, rfl⟩

theorem sequence (kind : SequenceKind) (element : TypeTag) :
    Alike (.alloc fun g => g.newSequence kind ⟨element, []⟩) := by
  intro g f has
  have handle := newSequence_handle has kind ⟨element, []⟩ ⟨element, []⟩
  exact .inr ⟨_, _, _, _, rfl, by rw [Step.alloc_run, handle]; rfl, newSequence_adds g kind _,
    handle ▸ newSequence_adds f kind _, fun _ => rfl⟩

theorem map (element : TypeTag) : Alike (.alloc fun g => g.newMap ⟨element, .empty⟩) := by
  intro g f has
  have handle := newMap_handle has ⟨element, .empty⟩ ⟨element, .empty⟩
  exact .inr ⟨_, _, _, _, rfl, by rw [Step.alloc_run, handle]; rfl, newMap_adds g _,
    handle ▸ newMap_adds f _, fun _ => rfl⟩

/-- What is made is a new empty node. -/
theorem adds {x : Step Value} (alike : Alike x) {g g' : Graph} {c : Value} (h : x.run g = (.ok c, g')) :
    ∃ n, g.Adds g' c n ∧ ∀ label, n.slot? label = none := by
  rcases alike g g fun _ => .rfl with ⟨e, run, -⟩ | ⟨c', n, g₁, _, run, -, adds, -, empty⟩
  · rw [run] at h
    cases h
  · rw [run] at h
    cases h
    exact ⟨n, adds, empty⟩

end Step.Alike

namespace Writer

theorem emptyCollection_alike (bracket : Option Bracket) :
    Step.Alike (.alloc fun g => emptyCollection g bracket) := by
  unfold emptyCollection
  split
  · exact .sequence _ .any
  · exact .map .any

/-- Without registered types only collections can be instantiated. -/
theorem instantiate_alike {tag : TypeTag} (node : tag.isCollection ∨ tag.fieldType = .complex) :
    Step.Alike (.attempt fun g => Registry.empty.instantiate g tag) := by
  have lift : ∀ {make : Graph → Value × Graph},
      (∀ g, Registry.empty.instantiate g tag = .ok (make g)) → Step.Alike (.alloc make) →
      Step.Alike (.attempt fun g => Registry.empty.instantiate g tag) := by
    intro make same alike g f has
    rw [Step.attempt_run, Step.attempt_run, same, same]
    exact alike g f has
  cases tag with
  | complex name =>
    intro g f _
    exact .inl ⟨.unknownType name, by rw [Step.attempt_run]; rfl, by rw [Step.attempt_run]; rfl⟩
  | sequence kind element => exact lift (fun _ => rfl) (.sequence kind element)
  | map element => exact lift (fun _ => rfl) (.map element)
  | any => exact lift (fun _ => rfl) (.map .any)
  | _ => simp [TypeTag.isCollection, TypeTag.fieldType] at node

theorem intermediate_alike (path : Path) (declared : Option TypeTag) (next : Option Segment) :
    Step.Alike (intermediate .empty path declared next) := by
  unfold intermediate
  split
  · exact emptyCollection_alike _
  · exact emptyCollection_alike _
  · split
    · next complex => exact instantiate_alike (.inr complex)
    · exact .throw _

theorem newChild_alike (path : Path) (declared : Option TypeTag) (s : Segment)
    (next : Option Segment) : Step.Alike (newChild .empty path declared s next) := by
  unfold newChild
  split
  · split
    · next found => exact instantiate_alike (.inl (Option.filter_eq_some_iff.1 found).2)
    · exact emptyCollection_alike _
  · exact intermediate_alike path declared next

end Writer

end FieldBinding
