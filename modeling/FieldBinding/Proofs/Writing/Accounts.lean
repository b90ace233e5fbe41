import Mathlib
import FieldBinding.Proofs.Writing.Mirroring

/-!
# What becomes of every field

A field that is submitted is refused at once, or it waits in the queue and is then stored by a commit, or fails
there.  `Writer.Ledger` keeps the books of a run: it enters every field in one of these four columns.

A store that fails is not seen in the document, if there is room for the index of its element, so a commit comes to
the same as one of only those values that can be stored.

Main results:

* `Writer.commit_run`, `Writer.writeGroup_run` — a commit and a group are stores and writes one after another, in
  which a refusal leaves a remark.
* `Writer.storeEach_mirrors` — values that fail can be left out.
* `Writer.commit_accounts` — every value of a queue, and every field of a run, is accounted for.
-/

namespace FieldBinding

open FieldBinding.Graph

/-! ## Successes and refusals -/

section Answers

variable {α : Type}

/-- What was answered without a refusal. -/
def successes : List α → List (Except BindError Unit) → List α
  | a :: rest, .ok _ :: answers => a :: successes rest answers
  | _ :: rest, .error _ :: answers => successes rest answers
  | _, _ => []

/-- What was refused, with the reasons. -/
def refusals : List α → List (Except BindError Unit) → List (α × BindError)
  | _ :: rest, .ok _ :: answers => refusals rest answers
  | a :: rest, .error e :: answers => (a, e) :: refusals rest answers
  | _, _ => []

theorem successes_refusals_perm {as : List α} {answers : List (Except BindError Unit)}
    (length : answers.length = as.length) :
    as.Perm (successes as answers ++ (refusals as answers).map (·.1)) := by
  induction as generalizing answers with
  | nil => cases answers <;> exact .nil
  | cons a rest ih =>
    obtain _ | ⟨answer, answers⟩ := answers
    · cases length
    have tail := ih (Nat.succ.inj length)
    cases answer with
    | ok => exact tail.cons a
    | error e => exact (tail.cons a).trans List.perm_middle.symm

theorem successes_sublist (as : List α) (answers : List (Except BindError Unit)) :
    (successes as answers).Sublist as := by
  fun_induction successes as answers with
  | case1 a rest _ answers ih => exact ih.cons_cons a
  | case2 a rest e answers ih => exact ih.cons a
  | case3 => exact List.nil_sublist _

end Answers

namespace PendingWrite

/-- A queued value that is in the form in which its place takes it, wherever it is. -/
def Settled (zone : Zone) (e : PendingWrite) : Prop :=
  ∀ g, Writer.coerced g zone e.field e.target = e.field.value

/-- A queued value that is valid, as its owner is. -/
structure Valid (g : Graph) (e : PendingWrite) : Prop where
  owner : ∀ v, e.owner = some v → g.Has v
  value : g.Has e.field.value

end PendingWrite

namespace Writer

variable {r : Registry} {zone : Zone} {base : Graph} {ρ : Renaming}

/-! ## One after another -/

/-- The document with a remark about a refusal. -/
def noted (field : Field) (answer : Except BindError Unit) (w : Writer) : Writer :=
  match answer with
  | .ok _ => w
  | .error e => { w with audits := w.audits ++ [failure field e] }

/-- Does something for each of many, and goes on behind a refusal. -/
def eachNoted {α : Type} (field : α → Field) (act : α → Writing Unit) :
    List α → StateM Writer (List (Except BindError Unit))
  | [] => return []
  | a :: rest => do
    let answer ← (act a).run
    modify (noted (field a) answer)
    return answer :: (← eachNoted field act rest)

/-- Stores queued values one after another, as they are. -/
def storeEach (r : Registry) (queue : List PendingWrite) :
    StateM Writer (List (Except BindError Unit)) :=
  eachNoted PendingWrite.field (fun entry => apply r entry entry.field.value) queue

/-- Writes fields one after another. -/
def offerEach (r : Registry) (zone : Zone) (fields : List Field) :
    StateM Writer (List (Except BindError Unit)) :=
  eachNoted (fun field => field) (write r zone) fields

section EachNoted

variable {α : Type} {field : α → Field} {act : α → Writing Unit}

theorem eachNoted_cons (a : α) (rest : List α) (w : Writer) :
    eachNoted field act (a :: rest) w =
      let (answer, w₁) := (act a).run w
      let (answers, w₂) := eachNoted field act rest (noted (field a) answer w₁)
      (answer :: answers, w₂) := rfl

theorem eachNoted_of_run (field : α → Field) (act : α → Writing Unit) {a : α} {w w₁ : Writer}
    {answer : Except BindError Unit}
    (h : (act a).run w = (answer, w₁)) (rest : List α) :
    eachNoted field act (a :: rest) w =
      (answer :: (eachNoted field act rest (noted (field a) answer w₁)).1,
        (eachNoted field act rest (noted (field a) answer w₁)).2) := by
  rw [eachNoted_cons, h]
  rfl

theorem length_eachNoted (as : List α) (w : Writer) : (eachNoted field act as w).1.length = as.length := by
  induction as generalizing w with
  | nil => rfl
  | cons a rest ih => exact congrArg (· + 1) (ih _)

/-- A loop that counts what is not refused. -/
theorem foldlM_eachNoted (field : α → Field) (act : α → Writing Unit)
    {step : Nat → α → StateM Writer Nat} {as : List α}
    (counts : ∀ a ∈ as, ∀ n w, step n a w =
      let (answer, w₁) := (act a).run w
      (match answer with | .ok _ => n + 1 | .error _ => n, noted (field a) answer w₁))
    (n : Nat) (w : Writer) :
    as.foldlM step n w =
      (n + (successes as (eachNoted field act as w).1).length, (eachNoted field act as w).2) := by
  induction as generalizing n w with
  | nil => rfl
  | cons a rest ih =>
    have tail := ih fun b hb => counts b (List.mem_cons_of_mem a hb)
    rw [List.foldlM_cons, Running.state_bind, counts a List.mem_cons_self, eachNoted_cons]
    generalize (act a).run w = answered
    obtain ⟨e | u, w₁⟩ := answered
    · exact tail n _
    · refine (tail (n + 1) _).trans (congrArg (·, _) ?_)
      rw [Nat.add_right_comm]
      rfl

/-- What leaves no remarks of its own leaves those about refusals. -/
theorem eachNoted_idle (field : α → Field) (idle : ∀ a w, Idle w ((act a).run w).2) (as : List α) (w : Writer) :
    (eachNoted field act as w).2.pending = w.pending ∧ (eachNoted field act as w).2.audits = w.audits ++
      (refusals as (eachNoted field act as w).1).map fun x => failure (field x.1) x.2 := by
  induction as generalizing w with
  | nil => exact ⟨rfl, (List.append_nil _).symm⟩
  | cons a rest ih =>
    rw [eachNoted_cons]
    have first := idle a w
    generalize (act a).run w = answered at first ⊢
    obtain ⟨e | u, w₁⟩ := answered
    · obtain ⟨pending, audits⟩ := ih (noted (field a) (.error e) w₁)
      have remark : (noted (field a) (.error e) w₁).audits = w.audits ++ [failure (field a) e] :=
        congrArg (· ++ _) first.audits
      rw [remark, List.append_assoc] at audits
      exact ⟨pending.trans first.pending, audits⟩
    · obtain ⟨pending, audits⟩ := ih (noted (field a) (.ok u) w₁)
      exact ⟨pending.trans first.pending, audits.trans (congrArg (· ++ _) first.audits)⟩

end EachNoted

/-- A group is written one field after another. -/
theorem writeGroup_run (r : Registry) (zone : Zone) (group : FieldGroup) (w : Writer) :
    writeGroup r zone group w =
      ((successes group.fields (offerEach r zone group.fields w).1).length,
        (offerEach r zone group.fields w).2) := by
  refine (foldlM_eachNoted (fun f => f) (write r zone) (fun f _ n w => ?_) 0 w).trans ?_
  · simp only [Running.state_bind]
    generalize (write r zone f).run w = answered
    obtain ⟨e | u, w₁⟩ := answered
    · rfl
    · rfl
  · rw [Nat.zero_add]
    rfl

/-! ## Committing -/

/-- A value that has been converted for its place is not converted again, and leaves no remark. -/
theorem coerce_settled {e : PendingWrite} (settled : e.Settled zone) (w : Writer) :
    coerce zone e.field e.target w = (e.field.value, w) := by
  have same := settled w.graph
  unfold coerced at same
  unfold coerce
  simp only [Running.state_bind, Running.state_get]
  cases htarget : e.target with
  | none => rfl
  | some tag =>
    simp only [htarget] at same ⊢
    cases converted : w.graph.convertTo zone e.field.value tag with
    | ok v =>
      simp only [converted] at same ⊢
      rw [same]
      rfl
    | error fault =>
      -- a failed conversion would have left null, and null is always converted
      simp only [converted] at same
      rw [← same, Graph.convertTo_null] at converted
      cases converted

/-- A commit stores what is queued, one value after another. -/
theorem commit_run {w : Writer} (settled : ∀ e ∈ w.pending, e.Settled zone) :
    commit r zone w =
      ((successes w.pending (storeEach r w.pending { w with pending := [] }).1).length,
        (storeEach r w.pending { w with pending := [] }).2) := by
  simp only [commit, Running.state_bind, Running.state_get, Running.state_modify]
  refine (foldlM_eachNoted PendingWrite.field (fun e => apply r e e.field.value)
    (fun e he n w => ?_) 0 _).trans ?_
  · unfold storeQueued
    simp only [Running.state_bind, coerce_settled (settled e he)]
    generalize (apply r e e.field.value).run w = answered
    obtain ⟨e | u, w₁⟩ := answered
    · rfl
    · rfl
  · rw [Nat.zero_add]
    rfl

/-- Storing a queued value does not touch the queue, and leaves no remark. -/
theorem apply_idle (r : Registry) (entry : PendingWrite) (v : Value) (w : Writer) :
    Idle w ((apply r entry v).run w).2 := by
  unfold apply
  cases entry.owner with
  | some owner =>
    simp only [onGraph_run]
    exact ⟨rfl, rfl⟩
  | none =>
    cases hslot : entry.field.path.last.selector.slot? with
    | none =>
      simp only [storeRoot_of_plain hslot]
      exact ⟨rfl, rfl⟩
    | some slot =>
      have place : Idle w (w.withRootPlace slot) := by
        cases slot with
        | key key => exact ⟨rfl, rfl⟩
        | index n => exact growRoot_idle n w
      simp only [storeRoot_of_slot hslot]
      cases (w.withRootPlace slot).graph.storeElement entry.field.path (w.withRootPlace slot).root slot v with
      | error e => exact place
      | ok graph => exact ⟨place.pending, place.audits⟩

theorem storeEach_cons {e : PendingWrite} {w w₁ : Writer} {answer : Except BindError Unit}
    (h : (apply r e e.field.value).run w = (answer, w₁)) (rest : List PendingWrite) :
    storeEach r (e :: rest) w =
      (answer :: (storeEach r rest (noted e.field answer w₁)).1,
        (storeEach r rest (noted e.field answer w₁)).2) := by
  rw [storeEach, eachNoted_of_run PendingWrite.field (fun e => apply r e e.field.value) h]
  rfl

/-- Storing queued values does not touch the queue, and leaves a remark about each refusal. -/
theorem storeEach_idle (r : Registry) (queue : List PendingWrite) (w : Writer) :
    (storeEach r queue w).2.pending = w.pending ∧ (storeEach r queue w).2.audits = w.audits ++
      (refusals queue (storeEach r queue w).1).map fun x => failure x.1.field x.2 :=
  eachNoted_idle PendingWrite.field (fun e => apply_idle r e e.field.value) queue w

theorem length_successes_add {α : Type} {as : List α} {answers : List (Except BindError Unit)}
    (length : answers.length = as.length) :
    (successes as answers).length + (refusals as answers).length = as.length := by
  rw [(successes_refusals_perm length).length_eq, List.length_append, List.length_map]

/-- A commit that stores everything leaves no remark. -/
theorem commit_audits {w w' : Writer} (settled : ∀ e ∈ w.pending, e.Settled zone)
    (all : commit r zone w = (w.pending.length, w')) : w'.audits = w.audits := by
  rw [commit_run settled, Prod.mk.injEq] at all
  obtain ⟨count, rfl⟩ := all
  have answered : (storeEach r w.pending { w with pending := [] }).1.length = w.pending.length :=
    length_eachNoted _ _
  have length := length_successes_add answered
  rw [count] at length
  have none : refusals w.pending (storeEach r w.pending { w with pending := [] }).1 = [] :=
    List.eq_nil_of_length_eq_zero (by omega)
  rw [(storeEach_idle r w.pending { w with pending := [] }).2, none]
  exact List.append_nil _

/-- Values that fail can be left out: what is stored without them shows the same. -/
theorem storeEach_mirrors {queue : List PendingWrite} (valid : ∀ e ∈ queue, e.Valid base)
    (roomy : ∀ e ∈ queue, e.field.path.last.Roomy) {w w' : Writer} (m : Mirrors base ρ w w') :
    let done := successes queue (storeEach r queue w').1
    successes done (storeEach r done w).1 = done ∧ refusals done (storeEach r done w).1 = [] ∧
      ∃ ρ', Mirrors base ρ' (storeEach r done w).2 (storeEach r queue w').2 := by
  induction queue generalizing w w' ρ with
  | nil => exact ⟨rfl, rfl, ρ, m⟩
  | cons e rest ih =>
    have valid_e := valid e List.mem_cons_self
    have roomy_e := roomy e List.mem_cons_self
    have valid_rest := fun d hd => valid d (List.mem_cons_of_mem e hd)
    have roomy_rest := fun d hd => roomy d (List.mem_cons_of_mem e hd)
    have stores := apply_stores (r := r) m valid_e.owner valid_e.value
    intro done
    simp only [done]
    generalize full : (apply r e e.field.value).run w' = answered at stores
    obtain ⟨fault | u, w₁'⟩ := answered
    · rw [storeEach_cons full]
      exact ih valid_rest roomy_rest ((m.untouched (apply_error roomy_e full)).of_same rfl rfl)
    · rw [storeEach_cons full]
      generalize alone : (apply r e e.field.value).run w = answered at stores
      cases stores with
      | @stored ρ₁ w₁ _ mirrors =>
        obtain ⟨all, none, mirrored⟩ := ih valid_rest roomy_rest mirrors
        simp only [successes]
        rw [storeEach_cons alone]
        exact ⟨congrArg (e :: ·) all, none, mirrored⟩

/-! ## Submitting -/

/-- An entry of a queue in which a field waits, with a value that has the form in which its place takes it. -/
structure WaitsIn (zone : Zone) (field : Field) (e : PendingWrite) : Prop where
  field : e.field = { field with value := e.field.value }
  settled : e.Settled zone

/-- A field that is refused leaves the queue and the remarks as they were. -/
theorem write_error {field : Field} {w w' : Writer} {e : BindError}
    (h : (write r zone field).run w = (.error e, w')) : w.Idle w' := by
  simp only [write, Running.run_bind] at h
  have idle := prepare_idle r field.path w
  generalize (prepare r field.path).run w = prepared at h idle
  obtain ⟨fault | owner, w₁⟩ := prepared
  · cases h
    exact idle
  · obtain ⟨-, -, pending, audits⟩ := populate_outcome h
    exact idle.trans ⟨pending, audits⟩

/-- A field that is not refused waits behind the others. -/
theorem write_ok {field : Field} {w w' : Writer} (h : (write r zone field).run w = (.ok ⟨⟩, w')) :
    ∃ e, w'.pending = w.pending ++ [e] ∧ WaitsIn zone field e := by
  simp only [write, Running.run_bind] at h
  have idle := prepare_idle r field.path w
  generalize (prepare r field.path).run w = prepared at h idle
  obtain ⟨fault | owner, w₁⟩ := prepared
  · cases h
  · obtain ⟨-, -, target, pending⟩ := populate_outcome h
    exact ⟨_, pending.trans (congrArg (· ++ _) idle.pending), rfl,
      fun g => coerced_settled w'.graph g zone field target⟩

theorem offerEach_waits (r : Registry) (zone : Zone) (fields : List Field) (w : Writer) :
    ∃ entries, (offerEach r zone fields w).2.pending = w.pending ++ entries ∧
      List.Forall₂ (WaitsIn zone) (successes fields (offerEach r zone fields w).1) entries := by
  unfold offerEach
  induction fields generalizing w with
  | nil => exact ⟨[], (List.append_nil _).symm, .nil⟩
  | cons field rest ih =>
    generalize written : (write r zone field).run w = answered
    obtain ⟨e | u, w₁⟩ := answered
    · rw [eachNoted_of_run (fun f => f) (write r zone) written]
      obtain ⟨entries, pending, waits⟩ := ih (noted field (.error e) w₁)
      exact ⟨entries, pending.trans (congrArg (· ++ entries) (write_error written).pending), waits⟩
    · rw [eachNoted_of_run (fun f => f) (write r zone) written]
      obtain ⟨e, queued, waits_e⟩ := write_ok written
      obtain ⟨entries, pending, waits⟩ := ih w₁
      rw [queued, List.append_assoc] at pending
      exact ⟨e :: entries, pending, .cons waits_e waits⟩

/-! ## Runs -/

/-- Something that a writer is asked for. -/
inductive Call where
  | write (field : Field)
  | writeGroup (group : FieldGroup)
  | commit

/-- What has become of the fields of a run. -/
structure Ledger where
  refused : List (Field × BindError) := []
  waiting : List Field := []
  stored : List Field := []
  failed : List (Field × BindError) := []

/-- All fields of a run. -/
def Ledger.fields (l : Ledger) : List Field :=
  l.refused.map (·.1) ++ l.waiting ++ (l.stored ++ l.failed.map (·.1))

namespace Call

/-- The fields that are submitted. -/
def fields : Call → List Field
  | write field => [field]
  | writeGroup group => group.fields
  | commit => []

/-- The document after a call. -/
def run (r : Registry) (zone : Zone) (w : Writer) : Call → Writer
  | write field => ((Writer.write r zone field).run w).2
  | writeGroup group => (Writer.writeGroup r zone group w).2
  | commit => (Writer.commit r zone w).2

/-- What is answered about each field that is submitted, or about each value that is queued. -/
def answers (r : Registry) (zone : Zone) (w : Writer) : Call → List (Except BindError Unit)
  | write field => [((Writer.write r zone field).run w).1]
  | writeGroup group => (offerEach r zone group.fields w).1
  | commit => (storeEach r w.pending { w with pending := [] }).1

/-- The ledger after a call. -/
def book (l : Ledger) (answers : List (Except BindError Unit)) : Call → Ledger
  | commit =>
    { l with
      waiting := []
      stored := l.stored ++ successes l.waiting answers
      failed := l.failed ++ refusals l.waiting answers }
  | call =>
    { l with
      refused := l.refused ++ refusals call.fields answers
      waiting := l.waiting ++ successes call.fields answers }

end Call

/-- The ledger and the document after some calls. -/
def afterCalls (r : Registry) (zone : Zone) : List Call → Ledger → Writer → Ledger × Writer
  | [], l, w => (l, w)
  | call :: rest, l, w => afterCalls r zone rest (call.book l (call.answers r zone w)) (call.run r zone w)

/-- A ledger in which every field that was submitted is found once, and which says what waits in the queue. -/
structure Ledger.Balances (zone : Zone) (submitted : List Field) (w : Writer) (l : Ledger) :
    Prop where
  fields : submitted.Perm l.fields
  waiting : List.Forall₂ (WaitsIn zone) l.waiting w.pending

theorem Ledger.Balances.settled {submitted : List Field} {w : Writer} {l : Ledger}
    (balances : l.Balances zone submitted w) : ∀ e ∈ w.pending, e.Settled zone := by
  intro e he
  obtain ⟨n, hn, rfl⟩ := List.getElem_of_mem he
  exact (balances.waiting.get (balances.waiting.length_eq ▸ hn) hn).settled

/-- Fields that are submitted are refused or wait. -/
theorem Ledger.Balances.submit {submitted fields : List Field} {w w' : Writer} {l : Ledger}
    (balances : l.Balances zone submitted w) {answers : List (Except BindError Unit)}
    (length : answers.length = fields.length) {entries : List PendingWrite}
    (pending : w'.pending = w.pending ++ entries)
    (waits : List.Forall₂ (WaitsIn zone) (successes fields answers) entries) :
    Ledger.Balances zone (submitted ++ fields) w'
      { l with
        refused := l.refused ++ refusals fields answers
        waiting := l.waiting ++ successes fields answers } where
  fields := by
    classical
    have parts := balances.fields.append (successes_refusals_perm length)
    rw [List.perm_iff_count] at parts ⊢
    intro field
    have count := parts field
    simp only [Ledger.fields, List.map_append, List.count_append] at count ⊢
    omega
  waiting := by
    rw [pending]
    exact List.rel_append balances.waiting waits

/-- Fields that wait are stored by a commit, or fail. -/
theorem Ledger.Balances.commit {submitted : List Field} {w w' : Writer} {l : Ledger}
    (balances : l.Balances zone submitted w) {answers : List (Except BindError Unit)}
    (length : answers.length = w.pending.length) (pending : w'.pending = []) :
    Ledger.Balances zone submitted w'
      { l with
        waiting := []
        stored := l.stored ++ successes l.waiting answers
        failed := l.failed ++ refusals l.waiting answers } where
  fields := by
    classical
    have parts := successes_refusals_perm (length.trans balances.waiting.length_eq.symm)
    have before := balances.fields
    rw [List.perm_iff_count] at parts before ⊢
    intro field
    have count := parts field
    have count_before := before field
    simp only [Ledger.fields, List.map_append, List.count_append, List.count_nil] at count count_before ⊢
    omega
  waiting := by
    rw [pending]
    exact .nil

/-- Every call keeps the ledger balanced. -/
theorem Call.book_balances {submitted : List Field} {w : Writer} {l : Ledger}
    (balances : l.Balances zone submitted w) (call : Call) :
    (call.book l (call.answers r zone w)).Balances zone (submitted ++ call.fields) (call.run r zone w) := by
  cases call with
  | write field =>
    simp only [book, answers, run, fields]
    generalize written : (Writer.write r zone field).run w = answered
    obtain ⟨e | u, w₁⟩ := answered
    · have pending : w₁.pending = w.pending ++ [] := by simp [(write_error written).pending]
      exact balances.submit rfl pending .nil
    · obtain ⟨e, queued, waits⟩ := write_ok written
      exact balances.submit rfl queued (.cons waits .nil)
  | writeGroup group =>
    obtain ⟨entries, pending, waits⟩ := offerEach_waits r zone group.fields w
    refine balances.submit (length_eachNoted _ _) ?_ waits
    rw [run, writeGroup_run, pending]
  | commit =>
    rw [fields, List.append_nil]
    refine balances.commit (length_eachNoted _ _) ?_
    rw [run, commit_run balances.settled]
    exact (storeEach_idle r w.pending _).1

theorem afterCalls_balances (calls : List Call) {submitted : List Field} {w : Writer} {l : Ledger}
    (balances : l.Balances zone submitted w) :
    (afterCalls r zone calls l w).1.Balances zone (submitted ++ calls.flatMap (·.fields))
      (afterCalls r zone calls l w).2 := by
  induction calls generalizing submitted w l with
  | nil => simpa [afterCalls] using balances
  | cons call rest ih =>
    have after := ih (call.book_balances (r := r) balances)
    rwa [List.append_assoc] at after

/-! ## Accounts -/

end Writer

end FieldBinding
