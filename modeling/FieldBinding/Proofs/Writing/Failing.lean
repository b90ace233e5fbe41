import FieldBinding.Proofs.Writing.Queueing

/-!
# Stores that fail

To store a value may take several changes: a list is filled up, or a longer array is made and takes the place of
the array, before the value gets into its element.  Whatever can fail comes before the first change that somebody
could see, so a store that fails leaves every node as it was.  What it leaves behind are nodes that nobody holds.

An index without room is the exception: no element gets its number, but by then the collection has lost its elements.

Main results:

* `Graph.grow_of_storeElement_error` — a collection that takes no element has not been changed to take it.
* `Writer.apply_error` — a store that fails leaves the document as it was, for every registry, if there is room for the
  index of its element.
-/

namespace FieldBinding

open FieldBinding.Graph

variable {r : Registry} {g g₁ g' : Graph}

namespace Graph

/-- Elements cannot be set behind a handle that is not valid. -/
theorem setItems_of_not_has {id : NodeId} (invalid : ¬id < g.sequences.size) (items : List Value) :
    g.setItems id items = g := by
  have behind : g.sequences.nodes.size ≤ id := Nat.le_of_not_lt invalid
  simp [setItems, Store.set, Array.setIfInBounds, Nat.not_lt.2 behind]

/-- An index of a sequence that is not too short takes a value. -/
theorem storeElement_ne_error {path : Path} {kind : SequenceKind} {id : NodeId} {n : Nat} {v : Value}
    {e : BindError} (bound : n < (g.sequence id).items.length) :
    g.storeElement path (.sequence kind id) (.index n) v ≠ .error e := by
  simp [storeElement, setItem?, bound]

/-- A collection that has been made large enough takes an element, so one that does not has not been changed. -/
theorem grow_of_storeElement_error {path : Path} {c c' : Value} {n : Nat} (room : ∀ items, HasRoom items n) {v : Value}
    {e : BindError} (grows : g.grow c n = some (c', g₁)) (same : g'.sequences = g₁.sequences)
    (h : g'.storeElement path c' (.index n) v = .error e) : c' = c ∧ g₁ = g := by
  have items : ∀ id, g'.sequence id = g₁.sequence id := fun id => by
    rw [sequence, sequence, same]
  rcases Writer.grow_cases grows with ⟨rfl, rfl⟩ | ⟨id, rfl, rfl, rfl⟩ | ⟨id, rfl, -, new⟩
  · exact ⟨rfl, rfl⟩
  · refine ⟨rfl, ?_⟩
    by_cases has : id < g.sequences.size
    · refine absurd h (storeElement_ne_error ?_)
      rw [items, sequence_setItems has]
      exact lt_length_padded_iff.2 (room _)
    · exact setItems_of_not_has has _
  · obtain ⟨rfl, rfl⟩ := Prod.mk.inj new
    refine absurd h (storeElement_ne_error ?_)
    have stored : g'.sequence g.sequences.next = Writer.longer g id n :=
      (items _).trans (Store.get_push_next _ _)
    rw [stored]
    exact lt_length_padded_iff.2 (room _)

end Graph

namespace Writer

/-! ## Storing in an owner -/

/-- Moving to a child only adds nodes. -/
theorem child_extends {v : Value} {name : String} {result : Except BindError Value}
    (h : (r.child v name).run g = (result, g')) : g.Extends g' := by
  rw [Registry.child_run] at h
  cases hyield : r.yieldAt g v name with
  | error e =>
    simp only [hyield] at h
    cases h
    exact .refl _
  | ok y =>
    simp only [hyield] at h
    cases y with
    | held w =>
      cases h
      exact .refl _
    | fresh content =>
      cases h
      exact plant_extends g content

/-- Storing a child changes no sequence. -/
theorem setChild_sequences {owner v : Value} {name : String} {hint : Option TypeTag} {result : Except BindError Unit}
    (h : (r.setChild owner name v hint).run g = (result, g')) : g'.sequences = g.sequences := by
  cases Registry.setChild_runs h <;> rfl

/-- A collection that cannot be made large enough is as it was. -/
theorem grow_error {path : Path} {owner c : Value} {s : Segment} {e : BindError}
    (h : (grow r path owner s c).run g = (.error e, g')) : g.Extends g' := by
  cases grow_runs h with
  | nested hindex grows other unnamed => exact extends_of_grow_other other grows
  | unstored hindex grows other named put => exact setChild_error put ▸ extends_of_grow_other other grows

/-- A collection that takes no element is as it was, also if it has been asked to grow for it. -/
theorem grow_storeElement_error {path : Path} {owner c c' v : Value} {s : Segment} (roomy : s.Roomy) {slot : Slot}
    {e : BindError} (hslot : s.selector.slot? = some slot)
    (hgrow : (grow r path owner s c).run g = (.ok c', g₁))
    (h : g₁.storeElement path c' slot v = .error e) : g₁ = g := by
  have indexed : ∀ {index : Nat}, s.selector.index? = some index → slot = .index index := by
    intro index hindex
    exact Option.some.inj (hslot.symm.trans (slot?_of_index? hindex))
  cases grow_runs hgrow with
  | kept => rfl
  | widened hindex grows =>
    obtain rfl := indexed hindex
    exact (grow_of_storeElement_error (roomy.hasRoom hindex) grows rfl h).2
  | replaced hindex grows other named put =>
    obtain rfl := indexed hindex
    exact absurd (grow_of_storeElement_error (roomy.hasRoom hindex) grows (setChild_sequences put) h).1 other

theorem storeChild_error {path : Path} (roomy : path.last.Roomy) {target : Option TypeTag} {owner v : Value}
    {e : BindError} (h : (storeChild r path target owner v).run g = (.error e, g')) : g.Extends g' := by
  cases storeChild_runs h with
  | plain plain put => exact setChild_error put ▸ .refl g
  | placeless => exact .refl g
  | lost bracketed hslot child => exact child_extends child
  | vanished bracketed hslot child => exact child_extends child
  | short bracketed hslot child value grown => exact (child_extends child).trans (grow_error grown)
  | refused bracketed hslot child value grown store =>
    exact grow_storeElement_error roomy hslot grown store ▸ child_extends child

/-! ## Storing in the root -/

theorem storeRoot_error {path : Path} {s : Segment} (roomy : s.Roomy) {v : Value} {w w' : Writer} {e : BindError}
    (h : (storeRoot path s v).run w = (.error e, w')) : w' = w := by
  cases hslot : s.selector.slot? with
  | none =>
    rw [storeRoot_of_plain hslot] at h
    cases h
  | some slot =>
    rw [storeRoot_of_slot hslot] at h
    cases hstore : (w.withRootPlace slot).graph.storeElement path (w.withRootPlace slot).root slot v with
    | ok g =>
      simp only [hstore] at h
      cases h
    | error e =>
      simp only [hstore] at h
      cases h
      cases slot with
      | key key => rfl
      | index n =>
        unfold withRootPlace growRoot at hstore ⊢
        simp only [Running.state_modify] at hstore ⊢
        cases hgrow : w.graph.grow w.root n with
        | none => rfl
        | some grown =>
          obtain ⟨root, graph⟩ := grown
          simp only [hgrow] at hstore ⊢
          have indexed : s.selector.index? = some n := index?_eq_some hslot
          obtain ⟨rfl, rfl⟩ := grow_of_storeElement_error (roomy.hasRoom indexed) hgrow rfl hstore
          rfl

/-! ## Storing a queued value -/

/-- The document shows what it did, with the same queue and the same remarks. -/
structure Untouched (w w' : Writer) : Prop where
  graph : w.graph.Extends w'.graph
  root : w'.root = w.root
  idle : w.Idle w'

/-- A store that fails leaves the document as it was, for every registry. -/
theorem apply_error {entry : PendingWrite} (roomy : entry.field.path.last.Roomy) {v : Value} {w w' : Writer}
    {e : BindError} (h : (apply r entry v).run w = (.error e, w')) : w.Untouched w' := by
  unfold apply at h
  cases howner : entry.owner with
  | none =>
    simp only [howner] at h
    obtain rfl := storeRoot_error roomy h
    exact ⟨.refl _, rfl, rfl, rfl⟩
  | some owner =>
    simp only [howner, onGraph_run] at h
    obtain ⟨failed, rfl⟩ := Prod.mk.inj h
    exact ⟨storeChild_error roomy (Prod.ext failed rfl), rfl, rfl, rfl⟩

end Writer

end FieldBinding
