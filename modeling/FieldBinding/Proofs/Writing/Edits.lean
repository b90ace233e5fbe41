import Mathlib.Logic.Relation
import FieldBinding.Proofs.Registry.Standalone
import FieldBinding.Proofs.Writing.Enriching
import FieldBinding.Proofs.Writing.Untyped

/-!
# What a writer does to a graph

A registry of types that stand alone gives every slot of a graph a declared type, `Registry.slotType`.  Whatever a
writer is asked for, it does one of three things to a graph at a time: it adds a node, it resizes a list,
or it puts a value into one slot.  `Graph.Edit` lists them, and leaves open which values may be put into which slots;
`Graph.Edits` are several edits one after another.

What holds of all slots is kept by edits if it holds of the slots of new nodes and of the values that are put, so
whoever wants to know what a writer keeps need not follow it on its way.

Main results:

* `Writer.intermediate_addsBlank`, `Writer.newChild_addsBlank` — a new node is blank, and of the declared type of its
  place.
* `Writer.setChild_cases` — a child is put into the slot that its name stands for, or is a null that is left out.
-/

namespace FieldBinding

open FieldBinding.Graph

/-! ## Types of slots -/

/-- Where nothing is known of a type it is that of anything at all. -/
theorem TypeTag.getD_filter_any (tag : TypeTag) : ((some tag).filter (· ≠ .any)).getD .any = tag := by
  by_cases any : tag = .any <;> simp [Option.filter, any]

namespace Registry

/-- The declared type of a slot: that of a member of an object, or of the elements of a collection. -/
def slotType (r : Registry) : NodeKind → String → TypeTag
  | .leaf, _ => .any
  | .sequence element, _ | .map element, _ => element
  | .object typeName, label => (((r.get? typeName).bind (·.member? label)).map (·.declared)).getD .any

/-- A name stands for a slot of a value: the slot holds the child, and has the type that is known of the child. -/
structure StandsFor (r : Registry) (g : Graph) (owner : Value) (name label : String) : Prop where
  opens : owner.holdsNames
  type : ∀ hint, (r.childType? g owner name hint).getD .any = r.slotType (g.node owner).kind label
  child : name ≠ "" → r.yieldAt g owner name = .ok (.held ((g.slot? owner label).getD .null))

theorem slotType_unknown {r : Registry} {typeName : String} (unknown : r.get? typeName = none) (label : String) :
    r.slotType (.object typeName) label = .any := by
  simp [slotType, unknown]

/-- Nothing is known of the children of an object whose type is not registered. -/
theorem childType?_unknown {r : Registry} {g : Graph} {id : NodeId}
    (unknown : r.get? (g.object id).typeName = none) (name : String) (hint : Option TypeTag) :
    r.childType? g (.object id) name hint = none := by
  have setters : r.settersOf (g.object id).typeName name = [] := by
    rw [settersOf, lineage_unknown unknown, List.flatMap_nil]
  have setter : ∀ hint, (r.setter (g.object id).typeName name hint).toOption = none := fun hint => by
    simp [Registry.setter, setters, Except.toOption]
  have declared : r.declared? (g.object id).typeName name = none := by
    simp [declared?, getter?, member?, lineage_unknown unknown, setter]
  simp [childType?, setter, declared]

variable {r : Registry} (alone : r.Standalone)

include alone

theorem slotType_member {typeName : String} {d : Descriptor} (known : r.get? typeName = some d) {m : Member}
    (hm : m ∈ d.members) : r.slotType (.object typeName) m.name = m.declared := by
  obtain ⟨m', found⟩ := Option.isSome_iff_exists.1
    (List.find?_isSome (p := fun e : Member => decide (e.name = m.name)).2 ⟨m, hm, by simp⟩)
  have name : m'.name = m.name := by simpa using List.find?_some found
  have same := (alone.bean.types typeName d known).member_ext m' (List.mem_of_find?_eq_some found) m hm name
  simp [slotType, known, Descriptor.member?, found, same]

end Registry

/-! ## Edits -/

namespace Graph

theorem newObject_adds (g : Graph) (node : Object) :
    g.Adds (g.newObject node).2 (g.newObject node).1 (.object node) where
  has v := by
    cases v with
    | object id =>
      simp only [newObject, Has, Value.address?, Store.size_push, Option.some.injEq, Address.object.injEq]
      exact Nat.lt_succ_iff_lt_or_eq
    | _ => simp [newObject, Has, Value.address?]
  new := Nat.lt_irrefl _
  kept _ has := (newObject_extends g node).node_eq has
  node := congrArg Node.object (Store.get_push_next _ _)

/-- A node that a writer makes: a collection without elements, a new object, or an array of another length. -/
inductive Blank (r : Registry) (g : Graph) : Node → Prop where
  | sequence (element : TypeTag) : Blank r g (.sequence ⟨element, []⟩)
  | map (element : TypeTag) : Blank r g (.map ⟨element, .empty⟩)
  | object {d : Descriptor} (known : r.get? d.name = some d) : Blank r g (.object d.defaultObject)
  | longer {id : NodeId} (has : g.Has (.sequence .array id)) (index : Nat) :
      Blank r g (.sequence (Writer.longer g id index))

/-- One edit, where `Puts g x label u` says that in a graph a value may be put into a slot of a node. -/
inductive Edit (r : Registry) (Puts : Graph → Value → String → Value → Prop) (g g' : Graph) : Prop where
  | add {c : Value} {n : Node} (adds : g.Adds g' c n) (blank : Blank r g n)
  | pad {x : Value} (has : g.Has x) (collection : x.isCollection) (pads : g.Resizes g' x)
  | put {x u : Value} {label : String} (has : g.Has x) (there : g.Has u) (puts : Puts g x label u)
      (rewrites : g.Rewrites g' x (onlyAt label u))

/-- Edits one after another. -/
abbrev Edits (r : Registry) (Puts : Graph → Value → String → Value → Prop) : Graph → Graph → Prop :=
  Relation.ReflTransGen (Edit r Puts)

section

variable {r : Registry} {g g' : Graph} {Puts Puts' : Graph → Value → String → Value → Prop}

/-- An initial value is valid in every graph. -/
theorem has_initial (g : Graph) (declared : TypeTag) : g.Has (Descriptor.initial declared) := by
  cases declared <;> trivial

/-- The slots of a node that a writer makes hold nulls, initial values, or elements that were there. -/
theorem Blank.slot {n : Node} (blank : Blank r g n) {label : String} {u : Value} (held : n.slot? label = some u) :
    u = .null ∨ (∃ d m, n = .object d.defaultObject ∧ r.get? d.name = some d ∧ m ∈ d.members ∧ label = m.name ∧
        u = Descriptor.initial m.declared) ∨
      ∃ id, g.Has (.sequence .array id) ∧ n.kind = (g.node (.sequence .array id)).kind ∧
        g.slot? (.sequence .array id) label = some u := by
  cases blank with
  | sequence element => cases held
  | map element => cases held
  | @object d known =>
    obtain ⟨m, hm, same⟩ := List.mem_map.1 (Entries.mem_ofList (Entries.mem_of_get? held))
    obtain ⟨name, value⟩ := Prod.mk.inj same
    exact .inr (.inl ⟨d, m, rfl, known, hm, name.symm, value.symm⟩)
  | @longer id has index =>
    exact (itemAt_of_padded held).imp_right fun old => .inr ⟨id, has, rfl, old⟩

/-- Their values are valid in the graph as it was. -/
theorem Blank.has {n : Node} (blank : Blank r g n) (closed : g.Closed) {label : String} {u : Value}
    (held : n.slot? label = some u) : g.Has u := by
  rcases blank.slot held with rfl | ⟨d, m, -, -, -, -, rfl⟩ | ⟨id, has, -, old⟩
  · trivial
  · exact has_initial g m.declared
  · exact closed.has_of_slot? has old

theorem Edit.mono (weaker : ∀ g x label u, Puts g x label u → Puts' g x label u) (edit : Edit r Puts g g') :
    Edit r Puts' g g' := by
  cases edit with
  | add adds blank => exact .add adds blank
  | pad has collection pads => exact .pad has collection pads
  | put has there puts rewrites => exact .put has there (weaker _ _ _ _ puts) rewrites

theorem Edit.has (edit : Edit r Puts g g') {v : Value} (has : g.Has v) : g'.Has v := by
  cases edit with
  | add adds blank => exact (adds.has v).2 (.inl has)
  | pad has collection pads => exact (pads.has v).2 ‹_›
  | put has there puts rewrites => exact (rewrites.has v).2 ‹_›

/-- A node stays of its kind. -/
theorem Edit.kind_eq (edit : Edit r Puts g g') {v : Value} (has : g.Has v) :
    (g'.node v).kind = (g.node v).kind := by
  cases edit with
  | add adds blank => rw [adds.kept v has]
  | pad has collection pads => exact pads.kind_eq v
  | put has there puts rewrites => exact rewrites.kind_eq

theorem Edit.closed (edit : Edit r Puts g g') (closed : g.Closed) : g'.Closed := by
  cases edit with
  | add adds blank => exact adds.closed closed fun label u held => blank.has closed held
  | pad has collection pads => exact pads.closed closed
  | put has there puts rewrites =>
    refine rewrites.closed closed fun other u held => ?_
    unfold onlyAt at held
    split at held
    · exact Option.some.inj held ▸ there
    · cases held

namespace Edits

theorem mono (weaker : ∀ g x label u, Puts g x label u → Puts' g x label u) (edits : Edits r Puts g g') :
    Edits r Puts' g g' :=
  Relation.ReflTransGen.mono (fun _ _ edit => Edit.mono weaker edit) _ _ edits

theorem has (edits : Edits r Puts g g') {v : Value} (has : g.Has v) : g'.Has v := by
  induction edits with
  | refl => exact has
  | tail _ edit ih => exact edit.has ih

theorem kind_eq (edits : Edits r Puts g g') {v : Value} (has : g.Has v) :
    (g'.node v).kind = (g.node v).kind := by
  induction edits with
  | refl => rfl
  | tail edits edit ih => exact (edit.kind_eq (Edits.has edits has)).trans ih

theorem closed (edits : Edits r Puts g g') (closed : g.Closed) : g'.Closed := by
  induction edits with
  | refl => exact closed
  | tail _ edit ih => exact edit.closed ih

end Edits

end

end Graph

/-! ## New nodes -/

namespace Writer

variable {r : Registry} {g g' : Graph}

/-- One blank node is made. -/
def AddsBlank (r : Registry) (g g' : Graph) (c : Value) : Prop :=
  c ≠ .null ∧ ∃ n, g.Adds g' c n ∧ Blank r g n

theorem emptyCollection_addsBlank (r : Registry) (g : Graph) (bracket : Option Bracket) :
    AddsBlank r g (emptyCollection g bracket).2 (emptyCollection g bracket).1 := by
  unfold emptyCollection
  split
  · exact ⟨by simp [newSequence], _, newSequence_adds g _ _, .sequence _⟩
  · exact ⟨by simp [newMap], _, newMap_adds g _, .map _⟩

section Standalone

variable (alone : r.Standalone)

include alone

/-- What is instantiated for a collection or an object is of the type that it is instantiated for. -/
theorem instantiate_addsBlank {tag : TypeTag} (node : tag.isCollection ∨ tag.fieldType = .complex) {c : Value}
    (h : r.instantiate g tag = .ok (c, g')) : AddsBlank r g g' c ∧ (tag = .any ∨ tag = g'.tagOf c) := by
  cases tag with
  | complex name =>
    simp only [Registry.instantiate] at h
    split at h
    · cases h
    next d known =>
    split at h
    · cases h
    simp only [alone.direct name d known, Except.ok.injEq] at h
    obtain ⟨rfl, rfl⟩ := Prod.mk.inj h
    obtain rfl := alone.named name d known
    have adds := newObject_adds g d.defaultObject
    have typeName : ((g.newObject d.defaultObject).2.object g.objects.next).typeName = d.name :=
      congrArg Object.typeName (Store.get_push_next _ _)
    exact ⟨⟨by simp, _, adds, .object known⟩, .inr (congrArg TypeTag.complex typeName.symm)⟩
  | sequence kind element =>
    obtain ⟨rfl, rfl⟩ := Prod.mk.inj (Except.ok.inj h)
    have type : ((g.newSequence kind ⟨element, []⟩).2.sequence g.sequences.next).element = element :=
      congrArg Sequence.element (Store.get_push_next _ _)
    exact ⟨⟨by simp, _, newSequence_adds g _ _, .sequence _⟩,
      .inr (congrArg (TypeTag.sequence kind) type.symm)⟩
  | map element =>
    obtain ⟨rfl, rfl⟩ := Prod.mk.inj (Except.ok.inj h)
    have type : ((g.newMap ⟨element, .empty⟩).2.map g.maps.next).element = element :=
      congrArg MapNode.element (Store.get_push_next _ _)
    exact ⟨⟨by simp, _, newMap_adds g _, .map _⟩, .inr (congrArg TypeTag.map type.symm)⟩
  | _ => simp [TypeTag.isCollection, TypeTag.fieldType] at node

/-- An intermediate node is of the declared type of its place. -/
theorem intermediate_addsBlank {path : Path} {declared : Option TypeTag} {next : Option Segment} {c : Value}
    (h : (intermediate r path declared next).run g = (.ok c, g')) :
    AddsBlank r g g' c ∧ (declared.getD .any = .any ∨ declared.getD .any = g'.tagOf c) := by
  unfold intermediate at h
  split at h
  · cases h
    exact ⟨emptyCollection_addsBlank r g _, .inl rfl⟩
  · cases h
    exact ⟨emptyCollection_addsBlank r g _, .inl rfl⟩
  · split at h
    · next complex =>
      rw [Step.attempt_run] at h
      split at h
      · next made =>
        obtain ⟨hc, rfl⟩ := Prod.mk.inj h
        rw [Except.ok.inj hc] at made
        exact instantiate_addsBlank alone (.inr complex) made
      · cases h
    · cases h

/-- So is a node for a child, unless brackets are put where the declared type has no elements. -/
theorem newChild_addsBlank {path : Path} {declared : Option TypeTag} {s : Segment} {next : Option Segment} {c : Value}
    (h : (newChild r path declared s next).run g = (.ok c, g')) :
    AddsBlank r g g' c ∧ ((declared.getD .any = .any ∨ declared.getD .any = g'.tagOf c) ∨
      (s.isCollection ∧ ∃ tag, declared = some tag ∧ tag ≠ .any ∧ tag.isCollection = false)) := by
  unfold newChild at h
  split at h
  case isFalse =>
    obtain ⟨added, type⟩ := intermediate_addsBlank alone h
    exact ⟨added, .inl type⟩
  next bracketed =>
  split at h
  · next tag found =>
    rw [Step.attempt_run] at h
    split at h
    · next made =>
      cases h
      obtain ⟨rfl, collection⟩ := Option.filter_eq_some_iff.1 found
      obtain ⟨added, type⟩ := instantiate_addsBlank alone (.inl collection) made
      exact ⟨added, .inl type⟩
    · cases h
  · next none =>
    cases h
    refine ⟨emptyCollection_addsBlank r g _, ?_⟩
    cases declared with
    | none => exact .inl (.inl rfl)
    | some tag =>
      by_cases any : tag = .any
      · exact .inl (.inl any)
      · exact .inr ⟨bracketed, tag, rfl, any, by simpa using none⟩

end Standalone

theorem AddsBlank.edit {Puts : Graph → Value → String → Value → Prop} {c : Value} (added : AddsBlank r g g' c) :
    Edit r Puts g g' := by
  obtain ⟨-, n, adds, blank⟩ := added
  exact .add adds blank

theorem AddsBlank.has {c : Value} (added : AddsBlank r g g' c) : g'.Has c := by
  obtain ⟨-, n, adds, -⟩ := added
  exact (adds.has c).2 (.inr rfl)

/-! ## Storing a child -/

section Standalone

variable (alone : r.Standalone)

include alone

/-- A child is put into the slot that its name stands for.  A null that has no place in an object is left out. -/
theorem setChild_cases {owner v : Value} {name : String} {hint : Option TypeTag} (has : g.Has owner)
    (h : (r.setChild owner name v hint).run g = (.ok ⟨⟩, g')) :
    (g' = g ∧ v = .null) ∨ ∃ label, r.StandsFor g owner name label ∧ g.Rewrites g' owner (onlyAt label v) ∧
      (v = .null → owner.isObject → (r.slotType (g.node owner).kind label).isNullable) := by
  cases Registry.setChild_runs h with
  | entry map =>
    subst map
    refine .inr ⟨name, ⟨rfl, fun hint => ?_, fun named => ?_⟩, setEntry_rewrites has name v,
      fun _ object => by cases object⟩
    · exact TypeTag.getD_filter_any _
    · simp only [Registry.yieldAt, named, if_false]
      rfl
  | @raw id object unknown =>
    subst object
    have none : r.get? (g.object id).typeName = none := by
      simpa [Registry.get?, Registry.contains, Entries.contains] using unknown
    have type : r.slotType (g.node (.object id)).kind name = .any := Registry.slotType_unknown none name
    refine .inr ⟨name, ⟨rfl, fun hint => ?_, fun named => ?_⟩, setMember_rewrites has name v,
      fun _ _ => by rw [type]; rfl⟩
    · rw [Registry.childType?_unknown none, type, Option.getD_none]
    · simp only [Registry.yieldAt, named, if_false, unknown, Bool.not_false, if_true]
      rfl
  | skipped object known found null primitive => exact .inl ⟨rfl, null⟩
  | @stored id place o object contained found nullable store =>
    subst object
    obtain ⟨d, known⟩ : ∃ d, r.get? (g.object id).typeName = some d := by
      simpa [Registry.get?, Registry.contains, Entries.contains, Option.isSome_iff_exists] using contained
    obtain ⟨m, accesses, type, stores⟩ := alone.place_accesses known found
    obtain rfl := Except.ok.inj ((stores _ _).symm.trans store)
    obtain ⟨d', known', hm⟩ := accesses.known
    have slot : r.slotType (g.node (.object id)).kind m.name = m.declared :=
      Registry.slotType_member alone known' hm
    refine .inr ⟨m.name, ⟨rfl, fun hint => ?_, fun named => ?_⟩, setMember_rewrites has m.name v, ?_⟩
    · rw [accesses.childType?_eq alone rfl, slot, Option.getD_some]
    · exact accesses.yieldAt_eq alone rfl named
    · intro null _
      rw [slot, ← type]
      exact nullable null

end Standalone

/-! ## Storing an element -/

/-- The type that is known of an element is that of its slot. -/
theorem elementType?_getD {c : Value} {slot : Slot} (fit : fits c slot) :
    (g.elementType? c).getD .any = r.slotType (g.node c).kind (Graph.label slot) := by
  cases c with
  | sequence kind id => exact TypeTag.getD_filter_any _
  | map id => exact TypeTag.getD_filter_any _
  | _ => cases fit

end Writer

end FieldBinding
