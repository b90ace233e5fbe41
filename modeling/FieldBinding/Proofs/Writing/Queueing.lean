import FieldBinding.Proofs.Conversion.Landing
import FieldBinding.Proofs.Writing.Preparing

/-!
# Queueing a value

What `Writer.populate` puts into the queue, and what becomes of it when it is taken out again: the value is
converted a second time, and stays as it is.

Main results:

* `Writer.populate_eq` — what it takes to queue a value, and what is queued.
* `Writer.populate_populates`, `Writer.populate_outcome` — a value is refused, or is queued behind the others.
* `Writer.populate_queues` — for a registry of beans, the document is not changed then.
* `Writer.coerced_settled` — a queued value is stored as it was queued.
-/

namespace FieldBinding.Writer

/-- The value of a field in the form in which its place takes it. -/
def coerced (g : Graph) (zone : Zone) (field : Field) (target : Option TypeTag) : Value :=
  match target with
  | none => field.value
  | some tag =>
    match g.convertTo zone field.value tag with
    | .ok v => v
    | .error _ => .null

/-- The remark that a value leaves if it cannot be converted. -/
def conversionRemarks (g : Graph) (zone : Zone) (field : Field) (target : Option TypeTag) :
    List Audit :=
  match target with
  | none => []
  | some tag =>
    match g.convertTo zone field.value tag with
    | .ok _ => []
    | .error e =>
      [{ status := if field.required then .error else .warn
         path := field.path.text
         message := e.message
         valueText := some (g.text field.value) }]

theorem coerce_eq (zone : Zone) (field : Field) (target : Option TypeTag) (w : Writer) :
    coerce zone field target w = (coerced w.graph zone field target,
      { w with audits := w.audits ++ conversionRemarks w.graph zone field target }) := by
  have same : w = { w with audits := w.audits ++ [] } := by rw [List.append_nil]
  unfold coerce coerced conversionRemarks
  simp only [Running.state_bind, Running.state_get]
  cases target with
  | none => exact congrArg (field.value, ·) same
  | some tag =>
    simp only
    cases w.graph.convertTo zone field.value tag with
    | ok v => exact congrArg (v, ·) same
    | error e => rfl

/-- A remark is left exactly if the value does not convert to the type of its place. -/
theorem conversionRemarks_eq_nil_iff (g : Graph) (zone : Zone) (field : Field) (target : Option TypeTag) :
    conversionRemarks g zone field target = [] ↔ ∀ tag ∈ target, ∃ v, g.convertTo zone field.value tag = .ok v := by
  cases target with
  | none => simp [conversionRemarks]
  | some tag => cases h : g.convertTo zone field.value tag <;> simp [conversionRemarks, h]

/-- Converting a value may leave a remark, and changes nothing else. -/
theorem coerce_run (zone : Zone) (field : Field) (target : Option TypeTag) (w : Writer) :
    ∃ audits, coerce zone field target w =
      (coerced w.graph zone field target, { w with audits }) :=
  ⟨_, coerce_eq zone field target w⟩

/-- A value that has been converted for its place is not converted again. -/
theorem coerced_settled (g g' : Graph) (zone : Zone) {zone' : Zone} (field : Field)
    (target : Option TypeTag) :
    coerced g' zone' { field with value := coerced g zone field target } target =
      coerced g zone field target := by
  cases target with
  | none => rfl
  | some tag =>
    cases h : g.convertTo zone field.value tag with
    | ok v => simp only [coerced, h, Graph.convertTo_settled h g']
    | error e => simp only [coerced, h, Graph.convertTo_null]

/-- What is queued is the value of the field, or has no parts. -/
theorem coerced_cases (g : Graph) (zone : Zone) (field : Field) (target : Option TypeTag) :
    coerced g zone field target = field.value ∨
      (coerced g zone field target).address? = none := by
  cases target with
  | none => exact .inl rfl
  | some tag =>
    cases h : g.convertTo zone field.value tag with
    | ok v =>
      simp only [coerced, h]
      rcases Graph.convertTo_cases h with rfl | rfl | ⟨s, rfl⟩
      · exact .inl rfl
      · exact .inr rfl
      · exact .inr rfl
    | error e =>
      simp only [coerced, h]
      exact .inr rfl

theorem coerced_leaf {field : Field} (leaf : field.value.address? = none) (g : Graph) (zone : Zone)
    (target : Option TypeTag) : (coerced g zone field target).address? = none := by
  rcases coerced_cases g zone field target with same | leaf
  · rw [same, leaf]
  · exact leaf

theorem leaf_cases {v : Value} (leaf : v.address? = none) : v = .null ∨ ∃ s, v = .scalar s := by
  cases v with
  | null => exact .inl rfl
  | scalar s => exact .inr ⟨s, rfl⟩
  | _ => cases leaf

/-- A value without parts is converted in the same way wherever it is. -/
theorem coerced_congr {field : Field} (leaf : field.value.address? = none) (g g' : Graph)
    (zone : Zone) (target : Option TypeTag) :
    coerced g' zone field target = coerced g zone field target := by
  cases target with
  | none => rfl
  | some tag =>
    have same : g'.convertTo zone field.value tag = g.convertTo zone field.value tag :=
      Graph.convertTo_congr (leaf_cases leaf) tag
    simp only [coerced, same]

/-- It leaves the same remark. -/
theorem conversionRemarks_congr {field : Field} (leaf : field.value.address? = none) (g g' : Graph)
    (zone : Zone) (target : Option TypeTag) :
    conversionRemarks g' zone field target = conversionRemarks g zone field target := by
  have text : g'.text field.value = g.text field.value := by
    rcases leaf_cases leaf with null | ⟨s, scalar⟩
    · rw [null, Graph.text, Graph.text, Graph.content, Graph.content, Graph.contentWithin, Graph.contentWithin]
    · rw [scalar, Graph.text, Graph.text, Graph.content, Graph.content, Graph.contentWithin, Graph.contentWithin]
  cases target with
  | none => rfl
  | some tag =>
    have same : g'.convertTo zone field.value tag = g.convertTo zone field.value tag :=
      Graph.convertTo_congr (leaf_cases leaf) tag
    simp only [conversionRemarks, same, text]

/-- What becomes of the queue when a value is put into it: nothing if the value is refused, and otherwise one entry
is added behind the others. -/
def Queues (zone : Zone) (field : Field) (owner : Option Value) (w w' : Writer) :
    Except BindError Unit → Prop
  | .error _ => w'.pending = w.pending ∧ w'.audits = w.audits
  | .ok _ => ∃ target, w'.pending = w.pending ++
      [⟨{ field with value := coerced w'.graph zone field target }, owner, target⟩]

/-- What queueing a value can do: the type of its place is not found, or there is no place, or the value waits behind
the others. -/
inductive Populates (r : Registry) (zone : Zone) (field : Field) (owner : Option Value) (w : Writer) :
    Except BindError Unit → Writer → Prop where
  | lost {e : BindError} {graph : Graph}
      (found : (targetOf r w.root field owner
        (if field.value.isNull then none else some (w.graph.tagOf field.value))).run w.graph = (.error e, graph)) :
      Populates r zone field owner w (.error e) { w with graph }
  | displaced {e : BindError} {target : Option TypeTag} {graph : Graph}
      (found : (targetOf r w.root field owner
        (if field.value.isNull then none else some (w.graph.tagOf field.value))).run w.graph = (.ok target, graph)) :
      Populates r zone field owner w (.error e) { w with graph }
  | queued {target : Option TypeTag} {graph : Graph} {audits : List Audit}
      (found : (targetOf r w.root field owner
        (if field.value.isNull then none else some (w.graph.tagOf field.value))).run w.graph = (.ok target, graph)) :
      Populates r zone field owner w (.ok ⟨⟩) { w with
        graph
        pending := w.pending ++ [⟨{ field with value := coerced graph zone field target }, owner, target⟩]
        audits }

/-- What a value says about the type of its place. -/
def hintOf (g : Graph) (v : Value) : Option TypeTag :=
  if v.isNull then none else some (g.tagOf v)

/-- What is asked of the place of a value before it is queued: a plain place has to be there. -/
def placeCheck (r : Registry) (g : Graph) (owner : Option Value) (terminal : Segment) (hint : Option TypeTag) :
    Except BindError Unit :=
  match owner with
  | some node => if terminal.isCollection then .ok ⟨⟩ else r.requirePlace g node terminal.name hint
  | none => .ok ⟨⟩

/-- A value is queued if the type of its place is found, and its place is there.  Its remark is left then. -/
theorem populate_eq (r : Registry) (zone : Zone) (field : Field) (owner : Option Value) (w : Writer) :
    (populate r zone field owner).run w =
      match (targetOf r w.root field owner (hintOf w.graph field.value)).run w.graph with
      | (.error e, graph) => (.error e, { w with graph })
      | (.ok target, graph) =>
        match placeCheck r graph owner field.path.last (target.or (hintOf w.graph field.value)) with
        | .error e => (.error e, { w with graph })
        | .ok _ => (.ok ⟨⟩, { w with
            graph
            pending := w.pending ++ [⟨{ field with value := coerced graph zone field target }, owner, target⟩]
            audits := w.audits ++ conversionRemarks graph zone field target }) := by
  unfold populate
  simp only [Running.run_bind, Running.run_get, onGraph_run]
  rw [← hintOf]
  generalize (targetOf r w.root field owner (hintOf w.graph field.value)).run w.graph = found
  obtain ⟨e | target, graph⟩ := found
  · rfl
  cases owner with
  | none => simp only [placeCheck, Running.run_bind, Running.run_monadLift, coerce_eq, Running.run_modify]
  | some node =>
    by_cases bracketed : field.path.last.isCollection
    · simp only [placeCheck, bracketed, if_true, Running.run_bind, Running.run_monadLift, coerce_eq,
        Running.run_modify]
    · simp only [placeCheck, bracketed, Bool.false_eq_true, if_false, Running.run_bind, Running.run_get,
        Running.run_liftExcept]
      cases r.requirePlace graph node field.path.last.name (target.or (hintOf w.graph field.value)) with
      | error e => rfl
      | ok there => simp only [Running.run_monadLift, coerce_eq, Running.run_modify]

theorem populate_populates {r : Registry} {zone : Zone} {field : Field} {owner : Option Value}
    {w w' : Writer} {result : Except BindError Unit}
    (h : (populate r zone field owner).run w = (result, w')) : Populates r zone field owner w result w' := by
  rw [populate_eq] at h
  generalize found : (targetOf r w.root field owner (hintOf w.graph field.value)).run w.graph = answer at h
  obtain ⟨e | target, graph⟩ := answer
  · cases h
    exact .lost found
  simp only at h
  split at h
  · cases h
    exact .displaced found
  · cases h
    exact .queued found

/-- A value is refused, or is queued behind the others, for every registry. -/
theorem populate_outcome {r : Registry} {zone : Zone} {field : Field} {owner : Option Value}
    {w w' : Writer} {result : Except BindError Unit}
    (h : (populate r zone field owner).run w = (result, w')) :
    w'.graph = ((targetOf r w.root field owner
      (if field.value.isNull then none else some (w.graph.tagOf field.value))).run w.graph).2 ∧
    w'.root = w.root ∧ Queues zone field owner w w' result := by
  cases populate_populates h with
  | lost found => exact ⟨by rw [found], rfl, rfl, rfl⟩
  | displaced found => exact ⟨by rw [found], rfl, rfl, rfl⟩
  | queued found => exact ⟨by rw [found], rfl, _, rfl⟩

section Bean

variable {r : Registry} (bean : r.Bean)

include bean

/-- Looking for the type of a place changes nothing. -/
theorem targetOf_graph (root : Value) (field : Field) (owner : Option Value)
    (hint : Option TypeTag) (g : Graph) : ((targetOf r root field owner hint).run g).2 = g := by
  unfold targetOf
  cases field.type with
  | some declared => rfl
  | none =>
    cases owner with
    | none => rfl
    | some node =>
      simp only
      split
      · simp only [Running.run_bind, Registry.child_run]
        cases hyield : r.yieldAt g node field.path.last.name with
        | error e => rfl
        | ok y =>
          obtain ⟨c, rfl⟩ := bean.yieldAt_held hyield
          rfl
      · rfl

/-- One entry is added behind the queue, and the document is not changed. -/
theorem populate_queues {zone : Zone} {field : Field} {owner : Option Value}
    {w w' : Writer} (h : (populate r zone field owner).run w = (.ok ⟨⟩, w')) :
    ∃ target, w'.graph = w.graph ∧ w'.root = w.root ∧ w'.pending = w.pending ++
      [⟨{ field with value := coerced w.graph zone field target }, owner, target⟩] := by
  obtain ⟨graph, root, target, pending⟩ := populate_outcome h
  rw [targetOf_graph bean] at graph
  exact ⟨target, graph, root, graph ▸ pending⟩

end Bean

end FieldBinding.Writer
