import Mathlib
import FieldBinding.Proofs.Writing.Waiting

/-!
# One commit is as good as many

Some fields are written and committed together, or each is committed before the next is written.  In the empty
registry, in a document without sharing, and where no field is written below another, both come to the same if there is
room for the indexes of the paths.

The document that is committed after every field is ahead of the other by what is in the queue; `Writer.Behind` is
this invariant.  A write keeps it, and at the end the one commit catches up.

Main results:

* `Writer.write_behind` — one field, written to both documents and committed in one of them.
* `Writer.commitAtEnd_eq_commitEach` — one commit is as good as many.
-/

namespace FieldBinding.Writer

open FieldBinding.Graph

/-! ## Two ways to write fields -/

/-- Writes fields one after another. -/
def writeEach (r : Registry) (zone : Zone) :
    List Field → StateM Writer (List (Except BindError Unit))
  | [] => return []
  | field :: rest => do
    let result ← (write r zone field).run
    return result :: (← writeEach r zone rest)

/-- Writes fields and commits them together.  Returns what became of each, and how many are stored. -/
def commitAtEnd (r : Registry) (zone : Zone) (fields : List Field) :
    StateM Writer (List (Except BindError Unit) × Nat) := do
  let results ← writeEach r zone fields
  return (results, ← commit r zone)

/-- Writes fields and commits each before the next is written. -/
def commitEach (r : Registry) (zone : Zone) :
    List Field → StateM Writer (List (Except BindError Unit) × Nat)
  | [] => return ([], 0)
  | field :: rest => do
    let result ← (write r zone field).run
    let stored ← commit r zone
    let (results, others) ← commitEach r zone rest
    return (result :: results, stored + others)

/-- What holds of two documents after each field, one that waits with its commit and one that does not, holds of them
after all. -/
theorem writeEach_commitEach {r : Registry} {zone : Zone}
    (Paired : Writer → Writer → Prop) (waiting : Writer → Nat) {fields : List Field}
    (step : ∀ field ∈ fields, ∀ w u, Paired w u → ∃ result w' u₁ u' n,
      (write r zone field).run w = (result, w') ∧ (write r zone field).run u = (result, u₁) ∧
        commit r zone u₁ = (n, u') ∧ Paired w' u' ∧ waiting w' = waiting w + n)
    {w u : Writer} (paired : Paired w u) :
    ∃ results w' u' n, writeEach r zone fields w = (results, w') ∧
      commitEach r zone fields u = ((results, n), u') ∧ Paired w' u' ∧
        waiting w' = waiting w + n := by
  induction fields generalizing w u with
  | nil => exact ⟨[], w, u, 0, rfl, rfl, paired, rfl⟩
  | cons field rest ih =>
    obtain ⟨result, w₁, u₁, u₂, n, run, run', committed, paired₁, count⟩ :=
      step field List.mem_cons_self w u paired
    obtain ⟨results, w₂, u₃, m, runs, runs', paired₂, counts⟩ :=
      ih (fun f hf => step f (List.mem_cons_of_mem _ hf)) paired₁
    refine ⟨result :: results, w₂, u₃, n + m, ?_, ?_, paired₂, by rw [counts, count, Nat.add_assoc]⟩
    · simp only [writeEach, Running.state_bind, run, runs, Running.state_pure]
    · simp only [commitEach, Running.state_bind, run', committed, runs', Running.state_pure]

/-! ## The invariant -/

/-- The values in a queue that will be stored, with their routes. -/
def storing (g : Graph) (root : Value) (queue : List PendingWrite) : Stores :=
  (queue.filter fun e => accepted g root e.field.path).map fun e =>
    (e.field.path.route, e.field.value)

theorem storing_append (g : Graph) (root : Value) (a b : List PendingWrite) :
    storing g root (a ++ b) = storing g root a ++ storing g root b := by
  simp [storing]

theorem storing_cons (g : Graph) (root : Value) (e : PendingWrite) (rest : List PendingWrite) :
    storing g root (e :: rest) =
      (if accepted g root e.field.path then [(e.field.path.route, e.field.value)] else []) ++
        storing g root rest := by
  unfold storing
  rw [List.filter_cons]
  split <;> rfl

/-- An entry of a queue: it waits, its route is one of some routes, and its value has no parts and needs no
further conversion. -/
structure Queued (S : List String → Prop) (zone : Zone) (g : Graph) (root : Value)
    (e : PendingWrite) : Prop where
  waits : Waits g root e
  nonempty : e.field.path.followed ≠ []
  named : ∀ s ∈ e.field.path.tail, s.name ≠ ""
  route : S e.field.path.route
  leaf : e.field.value.address? = none
  settled : ∀ k : Graph, coerced k zone e.field e.target = e.field.value

/-- A document whose queue waits is behind one that has stored everything. -/
structure Behind (S : List String → Prop) (zone : Zone) (w u : Writer) : Prop where
  root : u.root = w.root
  idle : u.pending = []
  queue : ∀ e ∈ w.pending, Queued S zone w.graph w.root e
  ahead : Ahead (storing w.graph w.root w.pending) w.root w.graph u.graph

variable {S : List String → Prop} {zone : Zone} {g g' f : Graph} {root root' : Value}
  {es : Stores}

theorem Queued.grown {e : PendingWrite} (queued : Queued S zone g root e)
    (grows : g.Grows root g' root') : Queued S zone g' root' e :=
  { queued with waits := queued.waits.grown grows }

theorem storing_grown {queue : List PendingWrite} (queued : ∀ e ∈ queue, Queued S zone g root e)
    (grows : g.Grows root g' root') : storing g' root' queue = storing g root queue := by
  unfold storing
  rw [List.filter_congr fun e he => accepted_grown (queued e he).waits.standing grows]

theorem mem_of_storing {queue : List PendingWrite} (queued : ∀ e ∈ queue, Queued S zone g root e)
    {e : List String × Value} (he : e ∈ storing g root queue) : S e.1 ∧ e.2.address? = none := by
  obtain ⟨entry, hentry, rfl⟩ := List.mem_map.1 he
  have queued := queued entry (List.mem_filter.1 hentry).1
  exact ⟨queued.route, queued.leaf⟩

/-- No route of some is in front of another. -/
def Apart (S : List String → Prop) : Prop :=
  ∀ p q, S p → S q → p <+: q → p = q

/-- Where no route is in front of another, nothing has been stored on the way to one of them. -/
theorem Apart.clear (apart : Apart S) (stored : ∀ e ∈ es, S e.1) {route : List String}
    (chosen : S route) : ∀ q τ, τ ≠ [] → q ++ τ = route → es.at? q = none := by
  rintro q τ more rfl
  by_contra some
  obtain ⟨v, hv⟩ := Option.ne_none_iff_exists'.1 some
  have same := apart q _ (stored _ (Stores.mem_of_at? hv)) chosen (List.prefix_append q τ)
  exact more (by simpa using same)

/-! ## Committing -/

theorem storeQueued_ahead {x : Writer} (ahead : Ahead es x.root g x.graph) (apart : Apart S)
    (stored : ∀ e ∈ es, S e.1) {e : PendingWrite} (queued : Queued S zone g x.root e) (k : Nat) :
    ∃ x', storeQueued .empty zone k e x = (k + (storing g x.root [e]).length, x') ∧
      x'.root = x.root ∧ x'.pending = x.pending ∧
      Ahead (es ++ storing g x.root [e]) x.root g x'.graph := by
  obtain ⟨audits, coerce⟩ := coerce_run zone e.field e.target x
  rw [queued.settled] at coerce
  have stored := apply_ahead (w := { x with audits }) ahead queued.waits queued.nonempty queued.named
    (apart.clear stored queued.route) e.field.value
  unfold storeQueued
  simp only [Running.state_bind, coerce]
  rw [storing_cons, show storing g x.root [] = [] from rfl, List.append_nil]
  by_cases takes : accepted g x.root e.field.path
  · simp only [takes, if_true] at stored ⊢
    obtain ⟨f', run, further⟩ := stored
    rw [run]
    exact ⟨_, rfl, rfl, rfl, further.ahead⟩
  · simp only [takes, Bool.false_eq_true, if_false] at stored ⊢
    obtain ⟨fault, run⟩ := stored
    rw [run]
    exact ⟨_, rfl, rfl, rfl, by simpa using ahead⟩

theorem storeAll_ahead {x : Writer} {queue : List PendingWrite} (ahead : Ahead es x.root g x.graph)
    (apart : Apart S) (stored : ∀ e ∈ es, S e.1)
    (queued : ∀ e ∈ queue, Queued S zone g x.root e) (k : Nat) :
    ∃ x', queue.foldlM (storeQueued .empty zone) k x =
        (k + (storing g x.root queue).length, x') ∧
      x'.root = x.root ∧ x'.pending = x.pending ∧
      Ahead (es ++ storing g x.root queue) x.root g x'.graph := by
  induction queue generalizing x es k with
  | nil => exact ⟨x, rfl, rfl, rfl, by simpa [storing] using ahead⟩
  | cons e rest ih =>
    have queued_e := queued e List.mem_cons_self
    obtain ⟨x₁, run₁, root₁, pending₁, ahead₁⟩ := storeQueued_ahead ahead apart stored queued_e k
    have stored₁ : ∀ d ∈ es ++ storing g x.root [e], S d.1 := by
      intro d hd
      rcases List.mem_append.1 hd with hd | hd
      · exact stored d hd
      · exact (mem_of_storing (by simpa using queued_e) hd).1
    rw [← root₁] at ahead₁ queued
    obtain ⟨x₂, run₂, root₂, pending₂, ahead₂⟩ := ih ahead₁ (by rwa [root₁])
      (fun d hd => queued d (List.mem_cons_of_mem _ hd)) (k + (storing g x.root [e]).length)
    have split : storing g x.root (e :: rest) = storing g x.root [e] ++ storing g x.root rest :=
      storing_append g x.root [e] rest
    rw [root₁] at run₂ root₂ ahead₂
    refine ⟨x₂, ?_, root₂, pending₂.trans pending₁, ?_⟩
    · rw [List.foldlM_cons, Running.state_bind, run₁, run₂, split, List.length_append, Nat.add_assoc]
    · rwa [split, ← List.append_assoc]

/-- A commit of a queue that waits stores what is accepted. -/
theorem commit_ahead {w : Writer} (ahead : Ahead es w.root g w.graph) (apart : Apart S)
    (stored : ∀ e ∈ es, S e.1) (queued : ∀ e ∈ w.pending, Queued S zone g w.root e) :
    ∃ w', commit .empty zone w = ((storing g w.root w.pending).length, w') ∧ w'.root = w.root ∧
      w'.pending = [] ∧ Ahead (es ++ storing g w.root w.pending) w.root g w'.graph := by
  obtain ⟨w', run, root, pending, ahead'⟩ :=
    storeAll_ahead (x := { w with pending := [] }) ahead apart stored queued 0
  refine ⟨w', ?_, root, pending, ahead'⟩
  simp only [commit, Running.state_bind, Running.state_get, Running.state_modify]
  rw [run, Nat.zero_add]

/-! ## Writing -/

/-- A field whose path may be written in any order with others. -/
structure Chosen (S : List String → Prop) (field : Field) : Prop where
  wellFormed : field.path.WellFormed
  single : field.path.hasWildcard = false
  nonempty : field.path.followed ≠ []
  named : ∀ s ∈ field.path.tail, s.name ≠ ""
  route : S field.path.route
  leaf : field.value.address? = none
  roomy : field.path.Roomy

/-- Where one document has stored the front of a queue and waits with its back, a commit catches up. -/
theorem commit_behind (apart : Apart S) {w u : Writer} (same : u.root = w.root)
    (front back : List PendingWrite) (hw : w.pending = front ++ back) (hu : u.pending = back)
    (queue : ∀ e ∈ w.pending, Queued S zone w.graph w.root e)
    (ahead : Ahead (storing w.graph w.root front) w.root w.graph u.graph) :
    ∃ u', commit .empty zone u = ((storing w.graph w.root back).length, u') ∧
      Behind S zone w u' := by
  have queue_front : ∀ e ∈ front, Queued S zone w.graph w.root e :=
    fun e he => queue e (by simp [hw, he])
  have stored : ∀ e ∈ storing w.graph w.root front, S e.1 :=
    fun e he => (mem_of_storing queue_front he).1
  have queue_back : ∀ e ∈ u.pending, Queued S zone w.graph u.root e :=
    fun e he => same ▸ queue e (by simp [hw, ← hu, he])
  obtain ⟨u', run, root, pending, ahead'⟩ := commit_ahead (same.symm ▸ ahead) apart stored queue_back
  rw [hu, same, ← storing_append, ← hw] at ahead'
  rw [hu, same] at run
  exact ⟨u', run, root.trans same, pending, queue, ahead'⟩

/-- One field, written to both documents and committed in one of them. -/
theorem write_behind (apart : Apart S) {w u : Writer} (behind : Behind S zone w u) {field : Field}
    (chosen : Chosen S field) :
    ∃ result w' u₁ u' n, (write .empty zone field).run w = (result, w') ∧
      (write .empty zone field).run u = (result, u₁) ∧ commit .empty zone u₁ = (n, u') ∧
      Behind S zone w' u' ∧
      (storing w'.graph w'.root w'.pending).length =
        (storing w.graph w.root w.pending).length + n := by
  obtain ⟨same, idle, queue, ahead⟩ := behind
  have stored : ∀ e ∈ storing w.graph w.root w.pending, S e.1 :=
    fun e he => (mem_of_storing queue he).1
  have clear := apart.clear stored chosen.route
  obtain ⟨result, root, g', f', run, run', ahead₁, grows, value, prepared⟩ :=
    prepare_alongside chosen.wellFormed chosen.single chosen.roomy same ahead clear
  have queue₁ : ∀ e ∈ w.pending, Queued S zone g' root e := fun e he => (queue e he).grown grows
  have unchanged := storing_grown queue grows
  unfold write
  simp only [Running.run_bind, run, run']
  cases result with
  | error e =>
    obtain ⟨u', committed, behind⟩ := commit_behind (w := { w with root, graph := g' })
      (u := { u with root, graph := f' }) apart rfl w.pending [] (List.append_nil _).symm idle
      queue₁ (by rwa [unchanged])
    exact ⟨.error e, _, _, u', _, rfl, rfl, committed, behind, by rw [unchanged]; rfl⟩
  | ok owner =>
    have prepared := prepared owner rfl
    obtain ⟨target, audits, audits', queued, queued'⟩ := populate_alongside
      (w := { w with root, graph := g' }) (u := { u with root, graph := f' }) rfl
      ahead₁ prepared chosen.single clear chosen.leaf
    have leaf := coerced_leaf chosen.leaf g' zone target
    generalize hentry : (⟨{ field with value := coerced g' zone field target }, owner, target⟩ :
      PendingWrite) = e at queued queued'
    have queued_e : Queued S zone g' root e := by
      subst hentry
      exact ⟨prepared.waits chosen.wellFormed chosen.single value rfl rfl, chosen.nonempty,
        chosen.named, chosen.route, leaf, fun k => coerced_settled g' k zone field target⟩
    have queue₂ : ∀ d ∈ w.pending ++ [e], Queued S zone g' root d := by
      simpa [or_imp, forall_and] using ⟨queue₁, queued_e⟩
    obtain ⟨u', committed, behind⟩ := commit_behind
      (w := { w with root, graph := g', pending := w.pending ++ [e], audits })
      (u := { u with root, graph := f', pending := u.pending ++ [e], audits := audits' })
      apart rfl w.pending [e] rfl (by simp [idle]) queue₂ (by rwa [unchanged])
    refine ⟨.ok ⟨⟩, _, _, u', _, queued, queued', committed, behind, ?_⟩
    rw [storing_append, unchanged, List.length_append]

/-! ## Fields of the root itself -/

/-- An entry of a queue that replaces the root. -/
structure AtRoot (zone : Zone) (e : PendingWrite) : Prop where
  owner : e.owner = none
  plain : e.field.path.last.selector.slot? = none
  leaf : e.field.value.address? = none
  settled : ∀ k : Graph, coerced k zone e.field e.target = e.field.value

/-- The value of the last entry of a queue, if there is one. -/
def lastValue (root : Value) (queue : List PendingWrite) : Value :=
  queue.foldl (fun _ e => e.field.value) root

theorem lastValue_leaf {queue : List PendingWrite} (some : queue ≠ [])
    (atRoot : ∀ e ∈ queue, AtRoot zone e) : (lastValue root queue).address? = none := by
  rw [lastValue, ← List.dropLast_concat_getLast some, List.foldl_append]
  exact (atRoot _ (List.getLast_mem some)).leaf

theorem storeAll_atRoot {queue : List PendingWrite} (atRoot : ∀ e ∈ queue, AtRoot zone e)
    (k : Nat) (x : Writer) :
    ∃ x', queue.foldlM (storeQueued .empty zone) k x = (k + queue.length, x') ∧
      x'.root = lastValue x.root queue ∧ x'.pending = x.pending := by
  induction queue generalizing x k with
  | nil => exact ⟨x, rfl, rfl, rfl⟩
  | cons e rest ih =>
    obtain ⟨owner, plain, -, settled⟩ := atRoot e List.mem_cons_self
    obtain ⟨audits, coerce⟩ := coerce_run zone e.field e.target x
    have run : storeQueued .empty zone k e x =
        (k + 1, { x with root := e.field.value, audits }) := by
      unfold storeQueued apply storeRoot
      simp only [Running.state_bind, coerce, settled, owner, plain, Running.run_modify,
        Running.state_pure]
    obtain ⟨x', runs, last, pending⟩ := ih (fun d hd => atRoot d (List.mem_cons_of_mem _ hd)) (k + 1)
      { x with root := e.field.value, audits }
    refine ⟨x', ?_, last, pending⟩
    rw [List.foldlM_cons, Running.state_bind, run, runs, List.length_cons, Nat.add_right_comm,
      Nat.add_assoc]

theorem commit_atRoot {w : Writer} (atRoot : ∀ e ∈ w.pending, AtRoot zone e) :
    ∃ w', commit .empty zone w = (w.pending.length, w') ∧ w'.root = lastValue w.root w.pending ∧
      w'.pending = [] := by
  obtain ⟨w', run, root, pending⟩ := storeAll_atRoot atRoot 0 { w with pending := [] }
  refine ⟨w', ?_, root, pending⟩
  simp only [commit, Running.state_bind, Running.state_get, Running.state_modify]
  rw [run, Nat.zero_add]

/-- A field of the root is always queued with its value converted, and it does not matter what the root is.  The only
remark is about a value that is not converted. -/
theorem write_atRoot (zone : Zone) {field : Field} (single : field.path.hasWildcard = false)
    (atRoot : field.path.followed = []) (leaf : field.value.address? = none) :
    ∃ e, AtRoot zone e ∧ (∀ g : Graph, e.field.value = coerced g zone field field.type) ∧
      ∀ w, ∃ w', (write .empty zone field).run w = (.ok ⟨⟩, w') ∧ w'.pending = w.pending ++ [e] ∧
        w'.audits = w.audits ++ conversionRemarks w.graph zone field field.type := by
  have plain : field.path.head.isCollection = false := by
    by_contra bracketed
    simp [Path.followed_of_bracketed (by simpa using bracketed)] at atRoot
  have below : field.path.tail = [] := by rwa [Path.followed_of_plain (by simp [plain])] at atRoot
  have last := Path.last_of_root below
  have slot := slot?_eq_none plain
  have index : field.path.head.selector.index? = none := by
    cases selector : field.path.head.selector <;> simp_all [Selector.slot?, Selector.index?]
  let g : Graph := default
  refine ⟨⟨{ field with value := coerced g zone field field.type }, none, field.type⟩,
    ⟨rfl, by rwa [last], coerced_leaf leaf g zone field.type, fun k => coerced_settled g k zone field field.type⟩,
    fun f => coerced_congr leaf f g zone field.type, fun w => ?_⟩
  obtain ⟨root, graph, rooted⟩ : ∃ root graph, ensureRoot field.path.head w = (⟨⟩, { w with root, graph }) := by
    rw [ensureRoot_eq, index]
    by_cases missing : w.root = .null
    · exact ⟨_, _, by rw [withRoot_of_null missing]⟩
    · exact ⟨w.root, w.graph, by rw [withRoot_of_value missing]⟩
  have prepared : (prepare .empty field.path).run w = (.ok none, { w with root, graph }) :=
    prepare_of_root single below rooted
  have found : (targetOf .empty root field none
      (if field.value.isNull then none else some (graph.tagOf field.value))).run graph =
        (.ok field.type, graph) := by
    unfold targetOf
    cases field.type with
    | some declared => rfl
    | none =>
      simp only [last, plain, Bool.false_eq_true, if_false, Running.run_bind, Running.run_get,
        Running.run_pure]
  have queued := populate_run (w := { w with root, graph }) zone found
  rw [coerced_congr leaf g graph, conversionRemarks_congr leaf w.graph graph] at queued
  unfold write
  simp only [Running.run_bind, prepared, queued]
  exact ⟨_, rfl, rfl, rfl⟩

/-- A field of the root, written to both documents and committed in one of them. -/
theorem write_commit_atRoot {field : Field} (single : field.path.hasWildcard = false)
    (atRoot : field.path.followed = []) (leaf : field.value.address? = none) {w u : Writer}
    (queue : ∀ e ∈ w.pending, AtRoot zone e) (idle : u.pending = []) :
    ∃ result w' u₁ u' n, (write .empty zone field).run w = (result, w') ∧
      (write .empty zone field).run u = (result, u₁) ∧ commit .empty zone u₁ = (n, u') ∧
      ((∀ e ∈ w'.pending, AtRoot zone e) ∧ u'.pending = [] ∧ w'.pending ≠ [] ∧
        u'.root = lastValue w'.root w'.pending) ∧
      w'.pending.length = w.pending.length + n := by
  obtain ⟨e, atRoot_e, -, run⟩ := write_atRoot zone single atRoot leaf
  obtain ⟨w', run_w, pending, -⟩ := run w
  obtain ⟨u₁, run_u, pending_u, -⟩ := run u
  rw [idle, List.nil_append] at pending_u
  have atRoot_u : ∀ d ∈ u₁.pending, AtRoot zone d := by simpa [pending_u] using atRoot_e
  obtain ⟨u', committed, root, done⟩ := commit_atRoot atRoot_u
  refine ⟨_, w', u₁, u', _, run_w, run_u, committed, ⟨?_, done, by simp [pending], ?_⟩, ?_⟩
  · simpa [pending, or_imp, forall_and] using ⟨queue, atRoot_e⟩
  · simp [root, pending_u, pending, lastValue]
  · simp [pending_u, pending]

/-! ## One commit and many -/

/-- A field that can be written together with others: its value has no parts, and its path is one place with names
below the root. -/
structure Placed (field : Field) : Prop where
  parsed : ∃ text, Path.parse text = .ok field.path
  single : field.path.hasWildcard = false
  named : ∀ s ∈ field.path.tail, s.name ≠ ""
  leaf : field.value.address? = none

theorem route_ne_nil {path : Path} (wellFormed : path.WellFormed)
    (single : path.hasWildcard = false) (more : path.followed ≠ []) : path.route ≠ [] := by
  rw [Path.route_eq more]
  refine List.append_ne_nil_of_right_ne_nil _ ?_
  by_cases below : path.tail = []
  · have bracketed : path.head.isCollection := by
      by_contra plain
      exact more ((Path.followed_of_plain plain).trans below)
    have last := Path.last_of_root below
    exact labels_ne_nil (fun _ => last ▸ bracketed) (Path.last_single single)
  · exact labels_ne_nil (wellFormed.written _ (Path.last_mem_tail below)) (Path.last_single single)

theorem commit_of_idle {r : Registry} {w : Writer} (idle : w.pending = []) :
    commit r zone w = (0, w) := by
  obtain ⟨graph, root, pending, audits⟩ := w
  cases idle
  rfl

/-- Fields come to the same whether they are committed together or each on its own. -/
def Agrees (zone : Zone) (w : Writer) (fields : List Field) : Prop :=
  ∃ results stored w₁ w₂, commitAtEnd .empty zone fields w = ((results, stored), w₁) ∧
    commitEach .empty zone fields w = ((results, stored), w₂) ∧
    ∀ depth, w₁.graph.contentWithin depth w₁.root = w₂.graph.contentWithin depth w₂.root

/-- Fields of the root itself replace one another. -/
theorem commitAtEnd_atRoot {w : Writer} {fields : List Field} (idle : w.pending = [])
    (placed : ∀ field ∈ fields, Placed field) (atRoot : ∀ field ∈ fields, field.path.followed = []) :
    Agrees zone w fields := by
  let Paired (w u : Writer) : Prop := (∀ e ∈ w.pending, AtRoot zone e) ∧ u.pending = [] ∧
    (u = w ∨ w.pending ≠ [] ∧ u.root = lastValue w.root w.pending)
  have step : ∀ field ∈ fields, ∀ w u, Paired w u → ∃ result w' u₁ u' n,
      (write .empty zone field).run w = (result, w') ∧
        (write .empty zone field).run u = (result, u₁) ∧ commit .empty zone u₁ = (n, u') ∧
        Paired w' u' ∧ w'.pending.length = w.pending.length + n := by
    rintro field hfield w u ⟨queue, idle, -⟩
    have placed := placed field hfield
    obtain ⟨result, w', u₁, u', n, run, run', committed, ⟨queue', idle', more, last⟩, count⟩ :=
      write_commit_atRoot placed.single (atRoot field hfield) placed.leaf queue idle
    exact ⟨result, w', u₁, u', n, run, run', committed, ⟨queue', idle', .inr ⟨more, last⟩⟩, count⟩
  obtain ⟨results, w', u', n, run, run', ⟨queue, idle', outcome⟩, count⟩ :=
    writeEach_commitEach Paired (·.pending.length) step (w := w) (u := w)
      ⟨by simp [idle], idle, .inl rfl⟩
  rw [idle, List.length_nil, Nat.zero_add] at count
  rcases outcome with rfl | ⟨more, last⟩
  · refine ⟨results, n, u', u', ?_, run', fun depth => rfl⟩
    unfold commitAtEnd
    simp only [Running.state_bind, run, commit_of_idle idle', Running.state_pure, ← count, idle',
      List.length_nil]
  · obtain ⟨w₂, committed, root, -⟩ := commit_atRoot queue
    refine ⟨results, n, w₂, u', ?_, run', fun depth => ?_⟩
    · unfold commitAtEnd
      simp only [Running.state_bind, run, committed, Running.state_pure, count]
    · rw [root, last]
      exact contentWithin_leaf _ _ depth (lastValue_leaf more queue)

/-- Fields below the root are stored in places of their own. -/
theorem commitAtEnd_below {w : Writer} {fields : List Field} (tree : w.graph.Treelike w.root)
    (idle : w.pending = []) (placed : ∀ field ∈ fields, Placed field) (roomy : ∀ field ∈ fields, field.path.Roomy)
    (below : ∀ field ∈ fields, field.path.followed ≠ [])
    (apart : ∀ field ∈ fields, ∀ other ∈ fields, field.path.route <+: other.path.route →
      field.path.route = other.path.route) :
    Agrees zone w fields := by
  let S : List String → Prop := (∃ field ∈ fields, field.path.route = ·)
  have apart : Apart S := by
    rintro _ _ ⟨field, hfield, rfl⟩ ⟨other, hother, rfl⟩
    exact apart field hfield other hother
  have step : ∀ field ∈ fields, ∀ w u, Behind S zone w u → ∃ result w' u₁ u' n,
      (write .empty zone field).run w = (result, w') ∧
        (write .empty zone field).run u = (result, u₁) ∧ commit .empty zone u₁ = (n, u') ∧
        Behind S zone w' u' ∧ (storing w'.graph w'.root w'.pending).length =
          (storing w.graph w.root w.pending).length + n := by
    intro field hfield w u behind
    have placed := placed field hfield
    obtain ⟨text, parsed⟩ := placed.parsed
    exact write_behind apart behind ⟨Path.wellFormed_of_parse parsed, placed.single,
      below field hfield, placed.named, ⟨field, hfield, rfl⟩, placed.leaf, roomy field hfield⟩
  have start : Behind S zone w w :=
    ⟨rfl, idle, by simp [idle], by simpa [idle, storing] using Ahead.refl tree⟩
  obtain ⟨results, w', u', n, run, run', ⟨root, -, queue, ahead⟩, count⟩ :=
    writeEach_commitEach (Behind S zone) (fun w => (storing w.graph w.root w.pending).length) step
      start
  have none_waits : (storing w.graph w.root w.pending).length = 0 := by rw [idle]; rfl
  rw [none_waits, Nat.zero_add] at count
  have tree' := Ahead.refl ahead.tree
  obtain ⟨w₂, committed, root₂, -, ahead₂⟩ := commit_ahead tree' apart (by simp) queue
  refine ⟨results, n, w₂, u', ?_, run', fun depth => ?_⟩
  · unfold commitAtEnd
    simp only [Running.state_bind, run, committed, Running.state_pure, count]
  · rw [root₂, root]
    exact ahead₂.contentWithin_eq ahead (fun e he => (mem_of_storing queue he).2) depth
      (.inr ⟨[], along_nil _ _⟩)

end FieldBinding.Writer
