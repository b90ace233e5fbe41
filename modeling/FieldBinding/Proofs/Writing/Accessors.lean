import FieldBinding.Proofs.Registry.Acceptance
import FieldBinding.Proofs.Writing.Retaining

/-!
# Accessors that are found twice

The place of a value is looked for when the value is queued, with the type that the place is known to have, and once
more when the value is stored, with the type of what the value has been converted to.  A setter does not care whether
a primitive may be null, and what is converted for a place of scalars is null or a scalar of its kind.  Hence both
searches find the same setter or the same member.

Between the two a run may go on, and others may change the graph.  The place stays the same while the object stays of
its type, as it does under every turn of a writer.

Main results:

* `Registry.setter_congr`, `Registry.place_congr` — for a scalar, only the kind of the hint matters.
* `Writer.storeChild_of_place` — a place that has been found takes a value, or its setter refuses it.
* `Writer.populate_accessor` — a queued value does not fail for want of an accessor.
-/

namespace FieldBinding

open FieldBinding.Graph

/-! ## Hints -/

namespace Registry

variable {r : Registry} {tag tag' : TypeTag} {kind : ScalarKind}

/-- A place takes a scalar of a kind whether or not the scalar may be null. -/
theorem accepts_scalar (param : TypeTag) (scalar : tag.fieldType = .scalar kind) :
    r.accepts param tag = r.accepts param (.scalar kind) :=
  accepts_reboxed (.same param) (.of_scalar scalar)

/-- For a scalar, only the kind of the hint matters. -/
theorem setter_congr (typeName field : String) (same : tag'.fieldType = tag.fieldType)
    (scalar : tag.fieldType = .scalar kind) :
    r.setter typeName field (some tag') = r.setter typeName field (some tag) := by
  have accepts : ∀ s : Setter, r.accepts s.parameter tag' = r.accepts s.parameter tag := fun s =>
    (accepts_scalar s.parameter (same.trans scalar)).trans (accepts_scalar s.parameter scalar).symm
  unfold setter
  cases r.settersOf typeName field with
  | nil => rfl
  | cons first rest => simp only [accepts]

theorem place_congr (typeName field : String) (same : tag'.fieldType = tag.fieldType)
    (scalar : tag.fieldType = .scalar kind) :
    r.place typeName field (some tag') = r.place typeName field (some tag) := by
  rw [place, place, setter_congr typeName field same scalar]

/-- A place that refuses a value is a setter of the field, with a reason of its own. -/
theorem store_error {typeName field : String} {hint : Option TypeTag} {p : Place} {o : Object} {v : Value}
    {fault : BindError} (found : r.place typeName field hint = .ok p) (refused : p.store o v = .error fault) :
    ∃ s ∈ r.settersOf typeName field, ∃ reason, s.store o v = .error reason ∧ fault = .refused reason := by
  cases p with
  | member m => cases refused
  | setter s =>
    refine ⟨s, mem_settersOf_of_place found, ?_⟩
    rw [Place.store] at refused
    cases stored : s.store o v with
    | ok o' =>
      rw [stored] at refused
      cases refused
    | error reason =>
      rw [stored] at refused
      exact ⟨reason, rfl, (Except.error.inj refused).symm⟩

end Registry

variable {r : Registry} {g : Graph}

namespace Writer

variable {w w' : Writer}

/-! ## One accessor -/

/-- A child that has a place is stored there, unless a setter refuses it. -/
theorem setChild_of_place {id : NodeId} {name : String} {hint : Option TypeTag} {p : Registry.Place} {v : Value}
    {fault : BindError} (found : r.place (g.object id).typeName name hint = .ok p)
    (refused : ((r.setChild (.object id) name v hint).run g).1 = .error fault) :
    ∃ s ∈ r.settersOf (g.object id).typeName name, ∃ reason,
      s.store (g.object id) v = .error reason ∧ fault = .refused reason := by
  generalize h : (r.setChild (.object id) name v hint).run g = out at refused
  obtain ⟨result, g'⟩ := out
  obtain rfl : result = .error fault := refused
  cases Registry.setChild_runs h with
  | placeless object _ none =>
    obtain rfl := Value.object.inj object
    rw [found] at none
    cases none
  | refused object _ found' _ store =>
    obtain rfl := Value.object.inj object
    obtain rfl := Except.ok.inj (found.symm.trans found')
    exact Registry.store_error found store
  | nameless _ object => exact absurd rfl (object id)

/-- A plain place of scalars that is there for the type that it is known to have is there for what a value has been
converted to. -/
theorem storeChild_of_place {path : Path} {id : NodeId} {tag : TypeTag} {kind : ScalarKind} {p : Registry.Place}
    {v : Value} {fault : BindError} (plain : path.last.isCollection = false) (scalar : tag.fieldType = .scalar kind)
    (found : r.place (g.object id).typeName path.last.name (some tag) = .ok p)
    (lands : v = .null ∨ ∃ s, v = .scalar s ∧ s.kind = kind)
    (refused : ((storeChild r path (some tag) (.object id) v).run g).1 = .error fault) :
    ∃ s ∈ r.settersOf (g.object id).typeName path.last.name, ∃ reason,
      s.store (g.object id) v = .error reason ∧ fault = .refused reason := by
  rw [storeChild_of_plain plain] at refused
  refine setChild_of_place (p := p) ?_ refused
  rcases lands with rfl | ⟨s, rfl, rfl⟩
  · exact found
  · have same : (g.tagOf (.scalar s)).fieldType = tag.fieldType := scalar.symm
    exact (Registry.place_congr _ _ same scalar).trans found

/-- A value has been queued for a plain field of an object of a registered type, and its place is known to be one of
scalars. -/
structure Awaits (r : Registry) (w w' : Writer) (id : NodeId) (tag : TypeTag) (e : PendingWrite) : Prop where
  queued : ∃ zone field, (populate r zone field (some (.object id))).run w = (.ok ⟨⟩, w')
  last : w'.pending = w.pending ++ [e]
  there : w.graph.Has (.object id)
  known : r.contains (w.graph.object id).typeName
  plain : e.field.path.last.isCollection = false
  target : e.target = some tag
  scalar : ∃ kind, tag.fieldType = .scalar kind

/-- A value is queued for a place that has been found. -/
theorem Awaits.found {id : NodeId} {tag : TypeTag} {e : PendingWrite} (awaits : Awaits r w w' id tag e) :
    e.owner = some (.object id) ∧
      ∃ p, r.place (w.graph.object id).typeName e.field.path.last.name (some tag) = .ok p := by
  obtain ⟨zone, field, queued⟩ := awaits.queued
  obtain ⟨target, graph, looked, required, rfl⟩ := populate_ok queued
  obtain rfl := List.singleton_inj.1 (List.append_cancel_left awaits.last)
  refine ⟨rfl, ?_⟩
  have retained := populate_retains queued id awaits.there
  have known : r.contains (graph.object id).typeName := retained.2.symm ▸ awaits.known
  obtain rfl : target = some tag := awaits.target
  have plain : field.path.last.isCollection = false := awaits.plain
  simp only [placeCheck, plain, Registry.requirePlace, known, Bool.not_true, Bool.false_eq_true, if_false,
    Option.some_or] at required
  rw [← retained.2]
  cases found : r.place (graph.object id).typeName field.path.last.name (some tag) with
  | ok p => exact ⟨p, rfl⟩
  | error fault =>
    rw [found] at required
    cases required

/-- It is stored there while the object is of its type, unless a setter refuses it. -/
theorem Awaits.stored {id : NodeId} {tag : TypeTag} {e : PendingWrite} (awaits : Awaits r w w' id tag e)
    {zone : Zone} {u : Writer} {fault : BindError}
    (typed : (u.graph.object id).typeName = (w.graph.object id).typeName)
    (refused : ((apply r e (coerced u.graph zone e.field e.target)).run u).1 = .error fault) :
    ∃ s ∈ r.settersOf (w.graph.object id).typeName e.field.path.last.name, ∃ reason,
      s.store (u.graph.object id) (coerced u.graph zone e.field e.target) = .error reason ∧
        fault = .refused reason := by
  obtain ⟨owner, p, found⟩ := awaits.found
  obtain ⟨kind, scalar⟩ := awaits.scalar
  have lands : coerced u.graph zone e.field e.target = .null ∨
      ∃ s, coerced u.graph zone e.field e.target = .scalar s ∧ s.kind = kind := by
    rw [awaits.target, coerced]
    cases converted : u.graph.convertTo zone e.field.value tag with
    | ok v => exact convertTo_lands scalar converted
    | error fault => exact .inl rfl
  simp only [apply, owner, onGraph_run, awaits.target] at refused
  rw [awaits.target] at lands
  rw [← typed] at found ⊢
  rw [awaits.target]
  exact storeChild_of_place awaits.plain scalar found lands refused

end Writer

end FieldBinding
