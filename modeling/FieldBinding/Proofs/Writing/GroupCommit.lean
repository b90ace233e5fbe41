import FieldBinding.Proofs.Writing.GroupQueue
import FieldBinding.Proofs.Writing.OneCommit

/-!
# Committing a group

No field of a group is written below another, so what one entry of the queue stores is not in the way of the next.  All
of them are stored, without a remark, and afterwards the way of each leads to its value.

Main results:

* `Writer.commit_due` — a commit stores everything that is due.
* `Writer.look_of_ahead` — afterwards accesses lead to what their route leads to.
* `Writer.look_storesOf` — the accesses of each field lead to its value.
-/

namespace FieldBinding.Writer

open FieldBinding.Graph

variable {demand : Demand} {es : Stores} {S : List String → Prop} {g f : Graph} {root : Value}

/-- The values of fields with the routes at which they are stored. -/
def storesOf (fields : List Field) : Stores :=
  fields.map fun field => (field.path.route, field.value)

/-- A graph is ahead of another by stored values, and shows the same where the document does not reach. -/
structure Stored (es : Stores) (root : Value) (g f : Graph) : Prop where
  ahead : Ahead es root g f
  kept : ∀ u, g.Outside root u → f.node u = g.node u

/-! ## Storing the queue -/

/-- An entry that is due is stored as it is. -/
theorem storeQueued_due (zone : Zone) {x : Writer} (stored : Stored es x.root g x.graph) {e : PendingWrite}
    (due : Due g x.root e) (clear : ∀ q τ, τ ≠ [] → q ++ τ = e.field.path.route → es.at? q = none)
    (k : Nat) :
    ∃ f, storeQueued .empty zone k e x = (k + 1, { x with graph := f }) ∧
      Stored (es ++ storesOf [e.field]) x.root g f := by
  have type : x.graph.tagOf e.field.value = g.tagOf e.field.value :=
    tagOf_congr (congrArg Node.kind (stored.kept _ due.spare.outside))
  have coerced : coerce zone e.field e.target x = (e.field.value, x) :=
    coerce_exact (type ▸ due.typed)
  have taken := apply_ahead stored.ahead due.waits due.writable.nonempty due.writable.named clear
    e.field.value
  rw [if_pos due.taken] at taken
  obtain ⟨f, run, further⟩ := taken
  refine ⟨f, ?_, further.ahead, fun u outside => ?_⟩
  · unfold storeQueued
    simp only [Running.state_bind, coerced, run]
    rfl
  · rw [further.spares u outside, stored.kept u outside]

/-- Entries that are due at routes of which none is in front of another are all stored. -/
theorem storeAll_due (zone : Zone) (apart : Apart S) {queue : List PendingWrite} {x : Writer}
    (stored : Stored es x.root g x.graph) (before : ∀ e ∈ es, S e.1)
    (due : ∀ e ∈ queue, Due g x.root e) (routes : ∀ e ∈ queue, S e.field.path.route) (k : Nat) :
    ∃ f, queue.foldlM (storeQueued .empty zone) k x = (k + queue.length, { x with graph := f }) ∧
      Stored (es ++ storesOf (queue.map (·.field))) x.root g f := by
  induction queue generalizing x es k with
  | nil => exact ⟨x.graph, rfl, by simpa [storesOf] using stored⟩
  | cons e rest ih =>
    have route := routes e List.mem_cons_self
    obtain ⟨f₁, run₁, stored₁⟩ := storeQueued_due zone stored (due e List.mem_cons_self)
      (apart.clear before route) k
    have before₁ : ∀ d ∈ es ++ storesOf [e.field], S d.1 := by
      simpa [storesOf, or_imp, forall_and] using ⟨fun a b h => before (a, b) h, route⟩
    obtain ⟨f₂, run₂, stored₂⟩ := ih (x := { x with graph := f₁ }) stored₁ before₁
      (fun d hd => due d (List.mem_cons_of_mem e hd))
      (fun d hd => routes d (List.mem_cons_of_mem e hd)) (k + 1)
    refine ⟨f₂, ?_, by simpa [storesOf] using stored₂⟩
    rw [List.foldlM_cons, Running.state_bind, run₁, run₂, List.length_cons, Nat.add_assoc, Nat.add_comm 1]

/-- A commit stores everything that is due, and leaves no remark. -/
theorem commit_due (zone : Zone) {w : Writer} (tree : w.graph.Treelike w.root)
    (due : ∀ e ∈ w.pending, Due w.graph w.root e)
    (apart : Apart fun ρ => ∃ e ∈ w.pending, e.field.path.route = ρ) :
    ∃ f, commit .empty zone w = (w.pending.length, { w with pending := [], graph := f }) ∧
      Stored (storesOf (w.pending.map (·.field))) w.root w.graph f := by
  have start : Stored [] w.root w.graph w.graph := ⟨.refl tree, fun _ _ => rfl⟩
  obtain ⟨f, run, stored⟩ := storeAll_due zone (x := { w with pending := [] }) apart start (by simp) due
    (fun e he => ⟨e, he, rfl⟩) 0
  refine ⟨f, ?_, stored⟩
  simp only [commit, Running.state_bind, Running.state_get, Running.state_modify]
  rw [run, Nat.zero_add]

/-! ## What is found afterwards -/

/-- In a document that suits, accesses lead to what their route leads to, when the values are stored behind them. -/
theorem look_of_ahead (ahead : Ahead es root g f) (suits : Suits demand g root)
    {way front back : List Access} (covers : demand.Covers [] way)
    (clear : ∀ q τ, τ ≠ [] → q ++ τ = way.map Access.label → es.at? q = none)
    (whole : front ++ back = way) {v : Value}
    (arrives : f.along root (front.map Access.label) = some v) : f.look root front = v := by
  refine look_of_along arrives fun before a after u eq found value => ?_
  have place : before.map Access.label ++ (a :: after ++ back).map Access.label =
      way.map Access.label := by
    rw [← whole, eq]
    simp
  rw [ahead.along_front place (by simp) clear] at found
  have asked := covers before a (after ++ back) (by rw [← whole, eq]; simp)
  exact ((suits _ a u asked found).resolve_left value).opens

section Fields

variable {fields : List Field} (apart : Apart S) (routes : ∀ field ∈ fields, S field.path.route)
  {field : Field} (mem : field ∈ fields)

include apart routes mem

/-- Nothing is stored on the way to the value of a field, if no field is written below another. -/
theorem clear_storesOf : ∀ q τ, τ ≠ [] → q ++ τ = field.path.route → (storesOf fields).at? q = none := by
  refine apart.clear (fun e he => ?_) (routes field mem)
  obtain ⟨other, mem', rfl⟩ := List.mem_map.1 he
  exact routes other mem'

/-- So its route leads to its value. -/
theorem along_storesOf (ahead : Ahead (storesOf fields) root g f) (distinct : (fields.map (·.path.route)).Nodup) :
    f.along root field.path.route = some field.value := by
  have distinct : ((storesOf fields).map (·.1)).Nodup := by
    rwa [storesOf, List.map_map]
  have stored := List.mem_map_of_mem (f := fun field : Field => (field.path.route, field.value)) mem
  exact ahead.along_stored (Stores.at?_of_mem distinct stored) (clear_storesOf apart routes mem)

/-- And so do its accesses. -/
theorem look_storesOf (ahead : Ahead (storesOf fields) root g f) (distinct : (fields.map (·.path.route)).Nodup)
    (suits : Suits demand g root) (covers : demand.Covers [] field.path.accesses) :
    f.look root field.path.accesses = field.value := by
  refine look_of_ahead ahead suits covers ?_ (List.append_nil _) ?_ <;> rw [Path.labels_accesses]
  · exact clear_storesOf apart routes mem
  · exact along_storesOf apart routes mem ahead distinct

end Fields

end FieldBinding.Writer
