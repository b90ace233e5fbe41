import FieldBinding.Proofs.Writing.Accounts

/-!
# Turns of a writer

In a run of a writer, paths are prepared, values are queued, and the queue is committed.  In between, others may
change the graph and leave remarks of their own.  The zone need not be the same from one turn to the next.

A value is converted twice: when it is queued, and when it is taken out of the queue.  Between the two the graph and
the zone may have changed, so the second conversion is not the same as the first.  It does not matter, since the first
one leaves null or a scalar of the kind of the place, which no conversion to that kind changes.  What cannot be
converted has become null by then, so it leaves one remark, when it is queued.

A turn is labelled with the remarks that it leaves about values.  They are told from other remarks by the text of the
value that they carry.

Main results:

* `Writer.Call.turns` — every call is a run.
* `Writer.Run.converted`, `Writer.Run.remarks_eq` — what every run keeps.
* `Writer.converted_once` — a commit changes no value, and leaves no remark about one.
-/

namespace FieldBinding

open FieldBinding.Graph

/-- The remarks about values. -/
def valueRemarks (audits : List Audit) : List Audit :=
  audits.filter (·.valueText.isSome)

theorem valueRemarks_append (a b : List Audit) : valueRemarks (a ++ b) = valueRemarks a ++ valueRemarks b :=
  List.filter_append ..

namespace Writer

variable {r : Registry} {zone : Zone} {field : Field} {owner : Option Value} {w w₁ w' : Writer}

/-! ## Queueing -/

/-- What is queued, and what has been found out by then. -/
theorem populate_ok (queued : (populate r zone field owner).run w = (.ok ⟨⟩, w')) :
    ∃ target graph,
      (targetOf r w.root field owner (hintOf w.graph field.value)).run w.graph = (.ok target, graph) ∧
      placeCheck r graph owner field.path.last (target.or (hintOf w.graph field.value)) = .ok ⟨⟩ ∧
      w' = { w with
        graph
        pending := w.pending ++ [⟨{ field with value := coerced graph zone field target }, owner, target⟩]
        audits := w.audits ++ conversionRemarks graph zone field target } := by
  rw [populate_eq] at queued
  generalize (targetOf r w.root field owner (hintOf w.graph field.value)).run w.graph = found at queued
  obtain ⟨e | target, graph⟩ := found
  · cases queued
  simp only at queued
  split at queued
  · cases queued
  · next there => exact ⟨target, graph, rfl, there, (Prod.mk.inj queued).2.symm⟩

/-- Every remark about a conversion carries the text of the value. -/
theorem valueRemarks_conversionRemarks (g : Graph) (zone : Zone) (field : Field) (target : Option TypeTag) :
    valueRemarks (conversionRemarks g zone field target) = conversionRemarks g zone field target := by
  unfold conversionRemarks
  cases target with
  | none => rfl
  | some tag =>
    simp only
    cases g.convertTo zone field.value tag with
    | ok v => rfl
    | error fault => rfl

/-- No remark about a failure does. -/
theorem valueRemarks_failures (failures : List (PendingWrite × BindError)) :
    valueRemarks (failures.map fun x => failure x.1.field x.2) = [] := by
  refine List.filter_eq_nil_iff.2 fun a mem => ?_
  obtain ⟨x, -, rfl⟩ := List.mem_map.1 mem
  simp [failure]

/-! ## Turns -/

/-- A turn, with the remarks that it leaves about values.  What others may do to the graph is up to `outside`. -/
inductive Turn (r : Registry) (outside : Graph → Graph → Prop) (w : Writer) : List Audit → Writer → Prop where
  | prepared (path : Path) : Turn r outside w [] ((prepare r path).run w).2
  | queued {zone : Zone} {field : Field} {owner : Option Value} {w' : Writer} {e : PendingWrite}
      (done : (populate r zone field owner).run w = (.ok ⟨⟩, w')) (last : w'.pending = w.pending ++ [e]) :
      Turn r outside w (conversionRemarks w'.graph zone field e.target) w'
  | refused {zone : Zone} {field : Field} {owner : Option Value} {fault : BindError} {w' : Writer}
      (done : (populate r zone field owner).run w = (.error fault, w')) : Turn r outside w [] w'
  | committed (zone : Zone) : Turn r outside w [] (commit r zone w).2
  | changed {graph : Graph} (root : Value) (done : outside w.graph graph) : Turn r outside w [] { w with graph, root }
  | remarked {a : Audit} (other : a.valueText = none) : Turn r outside w [] { w with audits := w.audits ++ [a] }

/-- Turns one after another. -/
inductive Run (r : Registry) (outside : Graph → Graph → Prop) (w : Writer) : List Audit → Writer → Prop where
  | start : Run r outside w [] w
  | turn {remarks more : List Audit} {w₁ w' : Writer} (before : Run r outside w remarks w₁)
      (turn : Turn r outside w₁ more w') : Run r outside w (remarks ++ more) w'

variable {outside : Graph → Graph → Prop} {remarks more : List Audit}

theorem Turn.run (turn : Turn r outside w remarks w') : Run r outside w remarks w' :=
  Run.turn .start turn

theorem Run.trans (before : Run r outside w remarks w₁) (after : Run r outside w₁ more w') :
    Run r outside w (remarks ++ more) w' := by
  induction after with
  | start => rwa [List.append_nil]
  | turn _ turn ih => exact List.append_assoc .. ▸ ih.turn turn

/-- Preparing a path and queueing a value for it are two turns at most. -/
theorem write_turns (r : Registry) (outside : Graph → Graph → Prop) (zone : Zone) (field : Field)
    (w : Writer) : ∃ remarks, Run r outside w remarks ((write r zone field).run w).2 := by
  have prepared : Turn r outside w [] ((prepare r field.path).run w).2 := .prepared field.path
  simp only [write, Running.run_bind]
  generalize (prepare r field.path).run w = answer at prepared ⊢
  obtain ⟨fault | owner, w₁⟩ := answer
  · exact ⟨[], prepared.run⟩
  simp only
  generalize done : (populate r zone field owner).run w₁ = answer
  obtain ⟨fault | _, w'⟩ := answer
  · exact ⟨[], prepared.run.turn (.refused done)⟩
  · obtain ⟨target, graph, -, -, queue⟩ := populate_ok done
    exact ⟨_, prepared.run.turn (.queued done (congrArg pending queue))⟩

/-- Every call is a run. -/
theorem Call.turns (outside : Graph → Graph → Prop) (zone : Zone) (call : Call) (w : Writer) :
    ∃ remarks, Run r outside w remarks (call.run r zone w) := by
  cases call with
  | write field => exact write_turns r outside zone field w
  | commit => exact ⟨[], Turn.run (.committed zone)⟩
  | writeGroup group =>
    rw [Call.run, writeGroup_run, offerEach]
    induction group.fields generalizing w with
    | nil => exact ⟨[], .start⟩
    | cons field rest ih =>
      obtain ⟨first, written⟩ := write_turns r outside zone field w
      rw [eachNoted_cons]
      generalize (Writer.write r zone field).run w = answer at written ⊢
      obtain ⟨fault | _, w₁⟩ := answer
      · obtain ⟨more, later⟩ := ih (noted field (.error fault) w₁)
        exact ⟨_, (written.turn (.remarked rfl)).trans later⟩
      · obtain ⟨more, later⟩ := ih w₁
        exact ⟨_, written.trans later⟩

/-! ## Queues -/

/-- Every queued value is in the form in which its place takes it, in any graph and any zone. -/
def Converted (w : Writer) : Prop :=
  ∀ e ∈ w.pending, ∀ zone, e.Settled zone

/-- A turn keeps the queue converted. -/
theorem Turn.converted (turn : Turn r outside w remarks w') (before : w.Converted) : w'.Converted := by
  cases turn with
  | prepared path => exact fun e he => before e ((prepare_idle r path w).pending ▸ he)
  | refused done => exact fun e he => before e ((populate_outcome done).2.2.1 ▸ he)
  | changed root done => exact before
  | remarked other => exact before
  | committed zone =>
    rw [commit_run fun e he => before e he zone]
    intro e he
    rw [(storeEach_idle r w.pending _).1] at he
    cases he
  | queued done last =>
    obtain ⟨target, graph, -, -, rfl⟩ := populate_ok done
    intro e he
    rcases List.mem_append.1 he with old | new
    · exact before e old
    · rw [List.mem_singleton.1 new]
      exact fun zone' g => coerced_settled graph g _ _ target

/-- A turn leaves the remarks about values that it is labelled with, and no others. -/
theorem Turn.remarks_eq (turn : Turn r outside w remarks w') (before : w.Converted) :
    valueRemarks w'.audits = valueRemarks w.audits ++ remarks := by
  cases turn with
  | prepared path => rw [(prepare_idle r path w).audits, List.append_nil]
  | refused done => rw [(populate_outcome done).2.2.2, List.append_nil]
  | changed root done => rw [List.append_nil]
  | remarked other => simp [valueRemarks, other]
  | committed zone =>
    rw [commit_run fun e he => before e he zone, (storeEach_idle r w.pending _).2, valueRemarks_append,
      valueRemarks_failures]
  | queued done last =>
    obtain ⟨target, graph, -, -, rfl⟩ := populate_ok done
    obtain rfl := List.singleton_inj.1 (List.append_cancel_left last)
    rw [valueRemarks_append, valueRemarks_conversionRemarks]

/-- So does a run. -/
theorem Run.converted (run : Run r outside w remarks w') (before : w.Converted) : w'.Converted := by
  induction run with
  | start => exact before
  | turn _ turn ih => exact turn.converted ih

theorem Run.remarks_eq (run : Run r outside w remarks w') (before : w.Converted) :
    valueRemarks w'.audits = valueRemarks w.audits ++ remarks := by
  induction run with
  | start => exact (List.append_nil _).symm
  | turn earlier turn ih => rw [turn.remarks_eq (earlier.converted before), ih, List.append_assoc]

/-! ## One conversion -/

/-- What becomes of a value that is queued.  One that cannot be converted is null from then on, and this is when its
remark is left. -/
theorem populate_converts (queued : (populate r zone field owner).run w = (.ok ⟨⟩, w')) :
    ∃ e, w'.pending = w.pending ++ [e] ∧ e.field = { field with value := e.field.value } ∧
      match e.target.map (w'.graph.convertTo zone field.value) with
      | none => e.field.value = field.value ∧ w'.audits = w.audits
      | some (.ok v) => e.field.value = v ∧ w'.audits = w.audits
      | some (.error fault) => e.field.value = .null ∧ w'.audits = w.audits ++
          [{ status := if field.required then .error else .warn
             path := field.path.text
             message := fault.message
             valueText := some (w'.graph.text field.value) }] := by
  obtain ⟨target, graph, -, -, rfl⟩ := populate_ok queued
  refine ⟨_, rfl, rfl, ?_⟩
  cases target with
  | none => exact ⟨rfl, List.append_nil _⟩
  | some tag =>
    simp only [Option.map_some, coerced, conversionRemarks]
    cases graph.convertTo zone field.value tag with
    | ok v => exact ⟨rfl, List.append_nil _⟩
    | error fault => exact ⟨rfl, rfl⟩

/-- Conversions land, and a commit converts nothing anew.

Where a scalar is asked for, what a value is converted to is null if the value is, and of the type that is asked for
otherwise, and to convert it again, in any zone, gives it back.

A value that is queued therefore leaves its remark at once: an error if its field is required and a warning otherwise,
and none if it can be converted.  However a run goes on from an empty queue, these are its only remarks about values.
What waits at its end is not changed by the conversion of a commit, which leaves no such remark. -/
theorem converted_once (r : Registry) (outside : Graph → Graph → Prop) :
    (∀ (g : Graph) (zone : Zone) (v u : Value) (tag : TypeTag) (kind : ScalarKind),
      tag.fieldType = .scalar kind → g.convertTo zone v tag = .ok u →
        (u = .null ↔ v = .null) ∧ (u ≠ .null → g.fieldTypeOf u = tag.fieldType) ∧
          ∀ (g' : Graph) (zone' : Zone), g'.convertTo zone' u tag = .ok u) ∧
    (∀ (zone : Zone) (field : Field) (owner : Option Value) (w w' : Writer),
      (populate r zone field owner).run w = (.ok ⟨⟩, w') →
        ∃ e, w'.pending = w.pending ++ [e] ∧ e.field = { field with value := e.field.value } ∧
          match e.target.map (w'.graph.convertTo zone field.value) with
          | none => e.field.value = field.value ∧ w'.audits = w.audits
          | some (.ok v) => e.field.value = v ∧ w'.audits = w.audits
          | some (.error fault) => e.field.value = .null ∧ w'.audits = w.audits ++
              [{ status := if field.required then .error else .warn
                 path := field.path.text
                 message := fault.message
                 valueText := some (w'.graph.text field.value) }]) ∧
    ∀ (w w' : Writer) (remarks : List Audit), w.pending = [] → Run r outside w remarks w' →
      valueRemarks w'.audits = valueRemarks w.audits ++ remarks ∧
      ∀ zone : Zone,
        (∀ e ∈ w'.pending, ∀ u, coerce zone e.field e.target u = (e.field.value, u)) ∧
        commit r zone w' =
          ((successes w'.pending (storeEach r w'.pending { w' with pending := [] }).1).length,
            (storeEach r w'.pending { w' with pending := [] }).2) ∧
        valueRemarks (commit r zone w').2.audits = valueRemarks w'.audits := by
  refine ⟨fun g zone v u tag kind scalar h => ⟨convertTo_eq_null_iff scalar h, fun value => ?_,
    fun g' zone' => convertTo_settled h g'⟩, fun zone field owner w w' => populate_converts,
    fun w w' remarks idle run => ?_⟩
  · obtain ⟨s, rfl, lands⟩ := (convertTo_lands scalar h).resolve_left value
    exact (congrArg FieldType.scalar lands).trans scalar.symm
  · have start : w.Converted := fun e he => by
      rw [idle] at he
      cases he
    have converted := run.converted start
    refine ⟨run.remarks_eq start, fun zone => ⟨fun e he u => coerce_settled (converted e he zone) u,
      commit_run fun e he => converted e he zone, ?_⟩⟩
    have committed : Turn r outside w' [] (commit r zone w').2 := .committed zone
    rw [committed.remarks_eq converted, List.append_nil]

/-- A truth value is written as a date, and the queue is committed in another zone. -/
theorem converted_once_day :
    let day : Field := { path := ⟨.root, [.field "day"]⟩, type := some (.scalar .date), value := .scalar (.bool true) }
    let opened : Writer := { graph := .empty, root := .null }
    let w := (Call.write day).run .empty .utc opened
    (opened.pending = [] ∧ ∃ remarks, Run .empty Extends opened remarks w) ∧
      (valueRemarks w.audits).map (·.status) = [.warn] ∧
      valueRemarks (commit .empty (some "UTC") w).2.audits = valueRemarks w.audits := by
  intro day opened w
  obtain ⟨remarks, run⟩ := Call.turns (r := .empty) Extends .utc (.write day) opened
  obtain ⟨-, -, runs⟩ := converted_once .empty Extends
  obtain ⟨-, committed⟩ := runs opened w remarks rfl run
  have warned : (valueRemarks w.audits).map (·.status) = [.warn] := rfl
  exact ⟨⟨rfl, remarks, run⟩, warned, (committed (some "UTC")).2.2⟩

end Writer

end FieldBinding
