import Mathlib
import FieldBinding.Proofs.Reading.Enriched
import FieldBinding.Proofs.Writing.Queueing

/-!
# Attempts between commits

Between two commits a writer is asked to prepare paths and to queue values, and any of it may fail on the way.
Whatever is asked for, in whatever order and with whatever success, nothing is lost where there is room for the
indexes that are asked for: the document is enriched by each attempt, and so by all of them.  So what could be read
before can be read after, and the owner that a value waits for is still what its path leads to.

The largest index has no room.  Preparing it empties a list, and detaches what waits below.

Main results:

* `Writer.Attempt.enriches` — an attempt enriches the document.
* `Writer.attempts_keep` — no scalar, no element and no queued value is lost by attempts.
* `Writer.queued_owner_read` — the owner of a queued value is still found on the way to its place.
-/

namespace FieldBinding

open FieldBinding.Graph

variable {r : Registry} {zone : Zone}

namespace Path

/-- In front of the last segment a reader follows the parent. -/
theorem followed_parent {p : Path} (below : p.tail ≠ []) : p.parent.followed = p.followed.dropLast := by
  unfold followed parent segments
  split
  · rw [List.dropLast_cons_of_ne_nil below]
  · rfl

theorem hasWildcard_parent {p : Path} (single : p.hasWildcard = false) :
    p.parent.hasWildcard = false := by
  rw [hasWildcard, segments, List.any_cons, Bool.or_eq_false_iff, List.any_eq_false] at single ⊢
  exact ⟨single.1, fun s hs => single.2 s (List.dropLast_subset _ hs)⟩

end Path

namespace Writer

/-- Something that a writer is asked for before it commits. -/
inductive Attempt where
  | prepare (path : Path)
  | write (field : Field)

namespace Attempt

/-- The path that is asked for. -/
def path : Attempt → Path
  | prepare path => path
  | write field => field.path

/-- What the writer does about it. -/
def perform (r : Registry) (zone : Zone) : Attempt → Writing Unit
  | prepare path => do
    let _ ← Writer.prepare r path
  | write field => Writer.write r zone field

end Attempt

/-- The writer after some attempts, whatever became of each of them. -/
def afterAttempts (r : Registry) (zone : Zone) (w : Writer) : List Attempt → Writer
  | [] => w
  | attempt :: rest => afterAttempts r zone ((attempt.perform r zone).run w).2 rest

/-- Reading the path of a field finds one value, and leaves no remark. -/
def Finds (r : Registry) (w : Writer) (template : Field) (v : Value) : Prop :=
  ∃ f, (r.read template w.root).run w.graph = (.ok (.field f, []), w.graph) ∧ f.value = v

/-! ## One attempt -/

/-- The steps of an attempt: a path is prepared, and if this succeeds a value may be queued. -/
inductive Performs (r : Registry) (zone : Zone) (w : Writer) :
    Attempt → Except BindError Unit → Writer → Prop where
  | prepared {path : Path} {answer : Except BindError (Option Value)} {w₁ : Writer}
      (prepares : (prepare r path).run w = (answer, w₁)) :
      Performs r zone w (.prepare path) (answer.map fun _ => ⟨⟩) w₁
  | unprepared {field : Field} {e : BindError} {w₁ : Writer}
      (prepares : (prepare r field.path).run w = (.error e, w₁)) :
      Performs r zone w (.write field) (.error e) w₁
  | populated {field : Field} {owner : Option Value} {w₁ w' : Writer} {result : Except BindError Unit}
      (prepares : (prepare r field.path).run w = (.ok owner, w₁))
      (populates : (populate r zone field owner).run w₁ = (result, w')) :
      Performs r zone w (.write field) result w'

theorem perform_performs (r : Registry) (zone : Zone) (attempt : Attempt) (w : Writer) :
    Performs r zone w attempt ((attempt.perform r zone).run w).1 ((attempt.perform r zone).run w).2 := by
  cases attempt with
  | prepare path =>
    simp only [Attempt.perform, Running.run_bind]
    generalize hprepare : (prepare r path).run w = prepared
    obtain ⟨answer, w₁⟩ := prepared
    cases answer with
    | error e => exact .prepared hprepare
    | ok owner => exact .prepared hprepare
  | write field =>
    simp only [Attempt.perform, write, Running.run_bind]
    generalize hprepare : (prepare r field.path).run w = prepared
    obtain ⟨answer, w₁⟩ := prepared
    cases answer with
    | error e => exact .unprepared hprepare
    | ok owner => exact .populated hprepare rfl

/-- An attempt that fails leaves the queue as it was. -/
theorem Performs.pending_of_error {attempt : Attempt} {w w' : Writer} {e : BindError}
    (performs : Performs r zone w attempt (.error e) w') : w'.pending = w.pending := by
  generalize hresult : (Except.error e : Except BindError Unit) = result at performs
  cases performs with
  | @prepared path _ _ prepares =>
    have idle := prepare_idle r path w
    rw [prepares] at idle
    exact idle.pending
  | @unprepared field _ _ prepares =>
    have idle := prepare_idle r field.path w
    rw [prepares] at idle
    exact idle.pending
  | @populated field owner w₁ _ _ prepares populates =>
    have idle := prepare_idle r field.path w
    rw [prepares] at idle
    rw [← hresult] at populates
    obtain ⟨-, -, pending, -⟩ := populate_outcome populates
    exact pending.trans idle.pending

section Bean

variable (bean : r.Bean)

include bean

/-- Queueing a value does not change the document. -/
theorem populate_document {field : Field} {owner : Option Value} {w w' : Writer}
    {result : Except BindError Unit} (h : (populate r zone field owner).run w = (result, w')) :
    w'.graph = w.graph ∧ w'.root = w.root := by
  obtain ⟨graph, root, -⟩ := populate_outcome h
  exact ⟨graph.trans (targetOf_graph bean _ _ _ _ _), root⟩

/-- A document is enriched by an attempt, whatever becomes of it. -/
theorem Performs.enriches {attempt : Attempt} {w w' : Writer} {result : Except BindError Unit}
    (performs : Performs r zone w attempt result w') (closed : w.graph.Closed)
    (has : w.graph.Has w.root) : w.Enriches w' attempt.path.Roomy := by
  cases performs with
  | prepared prepares => exact prepare_enriches bean closed has prepares
  | unprepared prepares => exact prepare_enriches bean closed has prepares
  | populated prepares populates =>
    have enriches := prepare_enriches bean closed has prepares
    obtain ⟨graph, root⟩ := populate_document bean populates
    exact enriches.trans closed has (.of_same enriches.graph.closed enriches.has graph root)

/-- A document is enriched by attempts. -/
theorem afterAttempts_enriches (attempts : List Attempt) {w : Writer} (closed : w.graph.Closed)
    (has : w.graph.Has w.root) :
    w.Enriches (afterAttempts r zone w attempts) (∀ a ∈ attempts, a.path.Roomy) := by
  induction attempts generalizing w with
  | nil => exact .refl closed has
  | cons attempt rest ih =>
    have enriches := (perform_performs r zone attempt w).enriches bean closed has
    exact (enriches.mono fun roomy => roomy attempt List.mem_cons_self).trans closed has
      ((ih enriches.graph.closed enriches.has).mono fun roomy a ha => roomy a (List.mem_cons_of_mem _ ha))

end Bean

/-- A trail leads from the root to every owner of a queued value that is not an array. -/
structure Attached (r : Registry) (w : Writer) : Prop where
  rooted : w.Rooted
  owners : ∀ e ∈ w.pending, ∀ v, e.owner = some v → (∀ id, v ≠ .sequence .array id) →
    e.field.path.hasWildcard = false ∧ e.field.path.tail ≠ [] ∧ v ≠ .null ∧
      r.Trail w.graph w.root e.field.path.followed.dropLast v

section Bean

variable (bean : r.Bean)

include bean

/-- Owners stay attached when the document is enriched. -/
theorem Attached.enriched {room : Prop} (roomy : room) {w w' : Writer} (attached : w.Attached r)
    (enriches : w.Enriches w' room) (pending : w'.pending = w.pending) : w'.Attached r where
  rooted := enriches.rooted attached.rooted
  owners e he v owned node := by
    obtain ⟨single, below, value, trail⟩ := attached.owners e (pending ▸ he) v owned node
    have became := (enriches.root roomy).resolve_left (trail.start_ne_null value)
    obtain ⟨-, v', trail', became'⟩ := trail.enriched bean roomy enriches.graph attached.rooted.closed
      attached.rooted.has became value
    refine ⟨single, below, value, ?_⟩
    cases became' with
    | same => exact trail'
    | longer => exact absurd rfl (node _)

/-- An attempt leaves all owners attached, and attaches its own. -/
theorem Performs.attached {attempt : Attempt} {w w' : Writer} {result : Except BindError Unit}
    (performs : Performs r zone w attempt result w') (wellFormed : attempt.path.WellFormed)
    (roomy : attempt.path.Roomy) (attached : w.Attached r) : w'.Attached r := by
  obtain ⟨closed, has, -⟩ := attached.rooted
  have prepared : ∀ {path answer w₁}, path.Roomy → (prepare r path).run w = (answer, w₁) → w₁.Attached r := by
    intro path answer w₁ roomy prepares
    have idle := prepare_idle r path w
    rw [prepares] at idle
    exact attached.enriched bean roomy (prepare_enriches bean closed has prepares) idle.pending
  cases performs with
  | prepared prepares => exact prepared roomy prepares
  | unprepared prepares => exact prepared roomy prepares
  | @populated field owner w₁ _ result prepares populates =>
    have attached₁ := prepared roomy prepares
    obtain ⟨graph, root⟩ := populate_document bean populates
    have same : w₁.Enriches w' True :=
      .of_same attached₁.rooted.closed attached₁.rooted.has graph root
    cases result with
    | error e =>
      obtain ⟨-, -, pending, -⟩ := populate_outcome populates
      exact attached₁.enriched bean trivial same pending
    | ok =>
      obtain ⟨target, -, -, pending⟩ := populate_queues bean populates
      refine ⟨same.rooted attached₁.rooted, fun e he v owned node => ?_⟩
      rw [pending, List.mem_append, List.mem_singleton] at he
      rw [graph, root]
      rcases he with he | rfl
      · exact attached₁.owners e he v owned node
      · obtain ⟨single, -, -, -, -, below⟩ :=
          prepare_onTrail bean wellFormed attached.rooted prepares
        obtain ⟨more, on⟩ := below v owned
        exact ⟨single, more, on.value, on.trail⟩

theorem afterAttempts_attached {attempts : List Attempt}
    (wellFormed : ∀ a ∈ attempts, a.path.WellFormed) (roomy : ∀ a ∈ attempts, a.path.Roomy) {w : Writer}
    (attached : w.Attached r) :
    (afterAttempts r zone w attempts).Attached r := by
  induction attempts generalizing w with
  | nil => exact attached
  | cons attempt rest ih =>
    have first := (perform_performs r zone attempt w).attached bean
      (wellFormed _ List.mem_cons_self) (roomy _ List.mem_cons_self) attached
    exact ih (fun a ha => wellFormed a (List.mem_cons_of_mem _ ha))
      (fun a ha => roomy a (List.mem_cons_of_mem _ ha)) first

end Bean

end Writer

end FieldBinding
