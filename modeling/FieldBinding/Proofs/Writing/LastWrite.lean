import FieldBinding.Proofs.Writing.Beside
import FieldBinding.Proofs.Writing.OneCommit

/-!
# The last write of a commit

Some fields are written and committed together, in the empty registry and in a document without sharing.  If all of
them are stored, a reader of the last path comes to the value that was queued for it, whatever was queued before: other
values for the same place, for places below it, or for the collection that it is an element of.

Only a value that has been queued for a place on the way to its owner hides it.

Main results:

* `Writer.write_parks` — a write puts an entry into the queue and disturbs no other.
* `Writer.commit_read_last` — the last write of a commit is what its path reads.
-/

namespace FieldBinding

open FieldBinding.Graph

namespace Writer

/-! ## Fields that are written one after another -/

/-- Fields are written one after another, all of them successfully.  Before each of them the host may make new nodes,
and the node of its value is in no place of the document. -/
inductive WritesFresh (zone : Zone) (w : Writer) : List Field → Writer → Prop
  | nothing : WritesFresh zone w [] w
  | write {fields : List Field} {field : Field} {w₁ w₂ : Writer} {g : Graph}
      (before : WritesFresh zone w fields w₁) (more : w₁.graph.Extends g) (closed : g.Closed)
      (has : g.Has field.value) (fresh : g.Outside w₁.root field.value)
      (written : (write .empty zone field).run { w₁ with graph := g } = (.ok ⟨⟩, w₂)) :
      WritesFresh zone w (fields ++ [field]) w₂

theorem WritesFresh.last {zone : Zone} {w w₂ : Writer} {fields : List Field} {field : Field}
    (writes : WritesFresh zone w (fields ++ [field]) w₂) :
    ∃ w₁ g, WritesFresh zone w fields w₁ ∧ w₁.graph.Extends g ∧ g.Closed ∧ g.Has field.value ∧
      g.Outside w₁.root field.value ∧
      (Writer.write .empty zone field).run { w₁ with graph := g } = (.ok ⟨⟩, w₂) := by
  generalize hall : fields ++ [field] = all at writes
  cases writes with
  | nothing => simp at hall
  | write before more closed has fresh written =>
    obtain ⟨rfl, same⟩ := List.append_inj' hall rfl
    cases same
    exact ⟨_, _, before, more, closed, has, fresh, written⟩

/-! ## The queue -/

/-- A document without sharing, with a queue of entries that are parked. -/
structure Parking (zone : Zone) (w : Writer) : Prop where
  tree : w.graph.Treelike w.root
  queue : ∀ e ∈ w.pending, Parked zone w.pending w.graph w.root e

variable {zone : Zone} {w w' : Writer}

theorem Parking.extends {g : Graph} (parking : Parking zone w) (more : w.graph.Extends g)
    (closed : g.Closed) : Parking zone { w with graph := g } where
  tree := parking.tree.extends more closed
  queue e he := (parking.queue e he).advanced (.of_extends parking.tree more closed)

/-- A write puts an entry into the queue and leaves the others parked; a trail leads to the owner of the entry. -/
theorem write_parks {field : Field} (wellFormed : field.path.WellFormed) (parking : Parking zone w)
    (has : w.graph.Has field.value) (outside : w.graph.Outside w.root field.value)
    (written : (write .empty zone field).run w = (.ok ⟨⟩, w')) :
    Parking zone w' ∧ ∃ e, w'.pending = w.pending ++ [e] ∧ e.field.path = field.path ∧
      ∀ owner, e.owner = some owner →
        Registry.empty.Trail w'.graph w'.root field.path.followed.dropLast owner := by
  obtain ⟨tree, queue⟩ := parking
  unfold write at written
  obtain ⟨owner, w₂, prepared, populated⟩ := Running.run_bind_ok written
  obtain ⟨-, idle, -, -, -, below⟩ := prepare_onTrail Registry.empty_bean wellFormed
    ⟨tree.closed, tree.has, tree.acyclic⟩ prepared
  obtain ⟨single, w₁, advances, value, settles⟩ := prepare_settles wellFormed tree prepared
  have tree₁ := advances.inherits.tree
  have inherits := advances.inherits.trans (settles.inherits tree₁)
  obtain ⟨target, graph_same, root_same, pending⟩ := populate_queues Registry.empty_bean populated
  obtain ⟨graph, root', queue', audits⟩ := w'
  simp only at graph_same root_same pending
  subst graph_same root_same pending
  rw [idle]
  generalize hentry : (⟨{ field with value := coerced w₂.graph zone field target }, owner, target⟩ : PendingWrite) =
    entry
  have path : entry.field.path = field.path := by rw [← hentry]
  have owned : entry.owner = owner := by rw [← hentry]
  have settles' : Settles entry.field.path w₁ entry.owner w₂ := by rwa [path, owned]
  have wellFormed' : entry.field.path.WellFormed := path ▸ wellFormed
  have mem : entry ∈ w.pending ++ [entry] := by simp
  have parked : Parked zone (w.pending ++ [entry]) w₂.graph w₂.root entry := by
    have fits := settles'.fits value rfl rfl
    refine ⟨settles'.seated wellFormed' tree₁ rfl rfl, path ▸ single, ?_, ?_, ?_,
      fits.imp_right fun thwarts => ⟨entry, mem, thwarts⟩⟩
    · rcases coerced_cases w₂.graph zone field target with same | leaf
      · rw [← hentry, same]
        exact inherits.has _ has
      · exact has_of_leaf (hentry ▸ leaf)
    · rcases coerced_cases w₂.graph zone field target with same | leaf
      · rw [← hentry, same]
        exact outside.inherited has inherits
      · exact .of_leaf (hentry ▸ leaf)
    · rw [← hentry]
      exact fun k => coerced_settled w₂.graph k zone field target
  refine ⟨⟨inherits.tree, fun e he => ?_⟩, entry, rfl, path, fun v hv => (below v (owned ▸ hv)).2.trail⟩
  rcases List.mem_append.1 he with he | he
  · have before := ((queue e he).mono fun b hb => List.mem_append_left [entry] hb).advanced advances
    have after : Parked zone (w.pending ++ [entry]) w₂.graph w₂.root e := before.opened tree₁ settles' wellFormed' mem
    exact after
  · exact List.mem_singleton.1 he ▸ parked

/-- Fields that are written are waiting in the queue, in order. -/
theorem WritesFresh.parking {fields : List Field} (writes : WritesFresh zone w fields w')
    (parking : Parking zone w) (wellFormed : ∀ field ∈ fields, field.path.WellFormed) :
    Parking zone w' ∧ w'.pending.map (·.field.path) =
      w.pending.map (·.field.path) ++ fields.map (·.path) := by
  induction writes with
  | nothing => exact ⟨parking, by simp⟩
  | @write fields field w₁ w₂ g before more closed has fresh written ih =>
    obtain ⟨parking₁, paths⟩ := ih fun f hf => wellFormed f (List.mem_append_left _ hf)
    obtain ⟨parking₂, e, pending, path, -⟩ :=
      write_parks (wellFormed field (by simp)) (parking₁.extends more closed) has fresh written
    exact ⟨parking₂, by simp [pending, path, paths]⟩

/-- Values without parts are fresh. -/
theorem WritesFresh.of_writeEach {fields : List Field} {results : List (Except BindError Unit)}
    (parking : Parking zone w) (wellFormed : ∀ field ∈ fields, field.path.WellFormed)
    (leaf : ∀ field ∈ fields, field.value.address? = none)
    (run : writeEach .empty zone fields w = (results, w')) (ok : ∀ x ∈ results, x = .ok ⟨⟩) :
    WritesFresh zone w fields w' := by
  suffices ∀ done w₀, WritesFresh zone w done w₀ → Parking zone w₀ →
      writeEach .empty zone fields w₀ = (results, w') → WritesFresh zone w (done ++ fields) w' from
    this [] w .nothing parking run
  clear run parking
  induction fields generalizing results with
  | nil =>
    intro done w₀ writes _ run
    cases run
    simpa using writes
  | cons field rest ih =>
    intro done w₀ writes parking run
    simp only [writeEach, Running.state_bind, Running.state_pure] at run
    generalize hwrite : (Writer.write .empty zone field).run w₀ = written at run
    obtain ⟨result, w₁⟩ := written
    generalize hrest : writeEach .empty zone rest w₁ = others at run
    obtain ⟨results', w₂⟩ := others
    cases run
    obtain rfl := ok result (by simp)
    have leaf_field := leaf field (by simp)
    have more : WritesFresh zone w (done ++ [field]) w₁ :=
      .write writes (.refl _) parking.tree.closed (has_of_leaf leaf_field) (.of_leaf leaf_field) hwrite
    have parking₁ := (write_parks (wellFormed field (by simp)) parking (has_of_leaf leaf_field)
      (.of_leaf leaf_field) hwrite).1
    rw [List.append_cons]
    exact ih (fun f hf => wellFormed f (by simp [hf])) (fun f hf => leaf f (by simp [hf]))
      (fun x hx => ok x (by simp [hx])) _ _ more parking₁ hrest

/-! ## The commit -/

theorem storeQueued_le (r : Registry) (zone : Zone) (k : Nat) (e : PendingWrite)
    (x : Writer) : (storeQueued r zone k e x).1 ≤ k + 1 := by
  unfold storeQueued
  simp only [Running.state_bind]
  generalize (apply r e _).run _ = stored
  obtain ⟨fault | u, y⟩ := stored
  · exact Nat.le_succ k
  · exact Nat.le_refl _

theorem storeAll_le (r : Registry) (zone : Zone) (k : Nat) (queue : List PendingWrite)
    (x : Writer) : (queue.foldlM (storeQueued r zone) k x).1 ≤ k + queue.length := by
  induction queue generalizing k x with
  | nil => exact Nat.le_refl _
  | cons e rest ih =>
    rw [List.foldlM_cons, Running.state_bind, List.length_cons]
    have first := storeQueued_le r zone k e x
    have others := ih (storeQueued r zone k e x).1 (storeQueued r zone k e x).2
    omega

/-- An entry that is counted is stored. -/
theorem storeQueued_stored {r : Registry} {k : Nat} {e : PendingWrite} {x x' : Writer}
    (h : storeQueued r zone k e x = (k + 1, x')) :
    ∃ audits, (apply r e (coerced x.graph zone e.field e.target)).run { x with audits } =
      (.ok ⟨⟩, x') := by
  obtain ⟨audits, run⟩ := coerce_run zone e.field e.target x
  refine ⟨audits, ?_⟩
  simp only [storeQueued, Running.state_bind, run] at h
  generalize (apply r e _).run _ = stored at h ⊢
  obtain ⟨fault | u, y⟩ := stored
  · have count := (Prod.mk.inj h).1
    simp at count
  · cases h
    rfl

/-- If all of a queue is stored, then so are its last entry and all before it. -/
theorem storeAll_concat {r : Registry} {k : Nat} {queue : List PendingWrite} {e : PendingWrite}
    {x x' : Writer}
    (h : (queue ++ [e]).foldlM (storeQueued r zone) k x = (k + (queue ++ [e]).length, x')) :
    ∃ y audits, queue.foldlM (storeQueued r zone) k x = (k + queue.length, y) ∧
      (apply r e (coerced y.graph zone e.field e.target)).run { y with audits } = (.ok ⟨⟩, x') := by
  have front := storeAll_le r zone k queue x
  simp only [List.foldlM_append, List.foldlM_cons, List.foldlM_nil, Running.state_bind,
    List.length_append, List.length_singleton] at h
  generalize queue.foldlM (storeQueued r zone) k x = run at h front ⊢
  obtain ⟨n, y⟩ := run
  have last := storeQueued_le r zone n e y
  have counted : storeQueued r zone n e y = (k + (queue.length + 1), x') := h
  rw [counted] at last
  simp only at front last
  have all : n = k + queue.length := by omega
  subst all
  obtain ⟨audits, applied⟩ := storeQueued_stored counted
  exact ⟨y, audits, rfl, applied⟩

/-- If all of a queue is stored, then so are the entries in front of any of them, and this one. -/
theorem storeAll_split {r : Registry} {k : Nat} {front back : List PendingWrite} {e : PendingWrite} {x x' : Writer}
    (h : (front ++ e :: back).foldlM (storeQueued r zone) k x = (k + (front ++ e :: back).length, x')) :
    ∃ y audits y', front.foldlM (storeQueued r zone) k x = (k + front.length, y) ∧
      (apply r e (coerced y.graph zone e.field e.target)).run { y with audits } = (.ok ⟨⟩, y') := by
  induction back using List.reverseRecOn generalizing x' with
  | nil =>
    obtain ⟨y, audits, run, applied⟩ := storeAll_concat h
    exact ⟨y, audits, x', run, applied⟩
  | append_singleton back d ih =>
    rw [← List.cons_append, ← List.append_assoc] at h
    obtain ⟨y, -, run, -⟩ := storeAll_concat h
    exact ih run

/-! ## The way to the owner of the last write -/

section Way

variable {g : Graph} {root : Value} {ρ : List String} {queue done : List PendingWrite} {x x' : Writer} {k : Nat}

variable (tree : g.Treelike root) (parked : ∀ e ∈ queue, Parked zone queue g root e) (graph : x.graph = g)
  (top : x.root = root)

include tree parked graph top

/-- Storing a queue keeps what the document holds. -/
theorem storeAll_holds (mem : ∀ e ∈ done, e ∈ queue)
    (h : done.foldlM (storeQueued .empty zone) k x = (k + done.length, x')) : Holds g x'.graph x'.root := by
  induction done using List.reverseRecOn generalizing x' with
  | nil =>
    cases h
    rw [graph, top]
    exact .refl tree
  | append_singleton done e ih =>
    obtain ⟨y, audits, run, applied⟩ := storeAll_concat h
    have parked_e := parked e (mem e (by simp))
    rw [parked_e.settled] at applied
    have holds := ih (fun d hd => mem d (by simp [hd])) run
    exact apply_holds (w := { y with audits }) holds parked_e applied

/-- Storing a queue beside the way to a place leaves the way as it is. -/
theorem storeAll_follows {rule : ArrayRule} {v : Value} (arrives : g.along root ρ = some v)
    (clear : ∀ e ∈ done, ¬e.field.path.route <+: ρ) (outlasts : ∀ e ∈ queue, Outlasts rule ρ g root e)
    (array : ∀ id, v = .sequence .array id → rule v (g.spans v)) (mem : ∀ e ∈ done, e ∈ queue)
    (h : done.foldlM (storeQueued .empty zone) k x = (k + done.length, x')) :
    Follows rule queue ρ g root x'.graph x'.root := by
  induction done using List.reverseRecOn generalizing x' with
  | nil =>
    cases h
    rw [graph, top]
    exact .start tree arrives (Parked.housed parked) array
  | append_singleton done e ih =>
    obtain ⟨y, audits, run, applied⟩ := storeAll_concat h
    have he := mem e (by simp)
    rw [(parked e he).settled] at applied
    have mem_done := fun d hd => mem d (List.mem_append_left [e] hd)
    have holds := storeAll_holds tree parked graph top mem_done run
    have follows := ih (fun d hd => clear d (by simp [hd])) mem_done run
    exact (apply_follows (w := { y with audits }) follows holds parked he (outlasts e he) (clear e (by simp))
      applied).1

/-- No entry is stored whose index is too large for the array that the way ends at. -/
theorem absurd_of_full {id : NodeId} (arrives : g.along root ρ = some (.sequence .array id))
    (clear : ∀ e ∈ queue, ¬e.field.path.route <+: ρ) {b : PendingWrite} (hb : b ∈ queue) {m : Nat}
    (hindex : b.field.path.last.selector.index? = some m) (full : ¬m + 1 < 2 ^ 64)
    (absent : g.spans (.sequence .array id) (Numeral.text m) = false) (anchored : Anchored g root b)
    (place : b.field.path.holderRoute = ρ) (named : b.owner ≠ none → b.field.path.last.name ≠ "")
    (h : queue.foldlM (storeQueued .empty zone) k x = (k + queue.length, x')) : False := by
  have parked_b := parked b hb
  obtain ⟨front, back, split⟩ := List.append_of_mem hb
  rw [split] at h
  obtain ⟨y, audits, y', run, applied⟩ := storeAll_split h
  have mem : ∀ e ∈ front, e ∈ queue := fun e he => by simp [split, he]
  -- the array on the way never gets this index, for only smaller ones make it longer
  have follows : Follows (fun _ labels => labels (Numeral.text m) = false) queue ρ g root y.graph y.root := by
    refine storeAll_follows tree parked graph top arrives (fun e he => clear e (mem e he)) (fun e _ => ?_)
      (fun i same => ?_) mem run
    · intro n i i' labels labels' _ small _ _ _ before _ more
      by_contra there
      rcases more (Numeral.text m) (by simpa using there) with there | ⟨j, same, le⟩
      · exact Bool.false_ne_true (before.symm.trans there)
      · obtain rfl := Numeral.text_injective same
        omega
    · rwa [same] at absent ⊢
  have holds := storeAll_holds tree parked graph top mem run
  have bracketed := isCollection_of_index? hindex
  obtain ⟨u, found, alike⟩ := follows.way ρ List.prefix_rfl
  obtain ⟨i, rfl⟩ : ∃ i, u = .sequence .array i := by
    rcases alike with same | ⟨_, i, -, rfl, -⟩
    · exact ⟨id, Option.some.inj (same.symm.trans arrives)⟩
    · exact ⟨i, rfl⟩
  have room := apply_room (w := { y with audits }) holds.closed holds.has_root
    (fun owner howner => holds.has owner (parked_b.seated.owner owner howner).housed.home.has) hindex
    ((follows.collection_eq parked_b.seated bracketed anchored place named).trans found) applied
  refine full (room .array i rfl ?_)
  have none := follows.array i found
  rwa [spans, slot?_sequence_text, Option.isSome_eq_false_iff, Option.isNone_iff_eq_none, List.getElem?_eq_none_iff]
    at none

/-- What the way ends at stays what it was, unless it is made longer for an entry; but all arrays of entries that are
stored are large enough. -/
theorem outlasts_end {v : Value} (arrives : g.along root ρ = some v)
    (clear : ∀ e ∈ queue, ¬e.field.path.route <+: ρ)
    (h : queue.foldlM (storeQueued .empty zone) k x = (k + queue.length, x')) {e : PendingWrite} (he : e ∈ queue) :
    Outlasts (fun u labels => u = v ∧ ∀ label, g.spans v label → labels label) ρ g root e := by
  rintro n id _ labels _ hindex small anchored place named ⟨rfl, kept⟩ absent -
  exfalso
  have ⟨seated, _, _, _, _, fits⟩ := parked e he
  have bracketed := isCollection_of_index? hindex
  have absent' : g.spans (.sequence .array id) (Numeral.text n) = false := by
    by_contra there
    exact Bool.false_ne_true (absent.symm.trans (kept _ (by simpa using there)))
  have bound : (g.sequence id).items.length ≤ n := by
    rwa [spans, slot?_sequence_text, Option.isSome_eq_false_iff, Option.isNone_iff_eq_none, List.getElem?_eq_none_iff]
      at absent'
  rcases fits with fits | ⟨b, hb, owner, name, m, hindex', full⟩
  · obtain ⟨c, found, -, large⟩ := fits n hindex anchored
    rw [seated.collection_eq bracketed anchored, place, arrives] at found
    exact absurd (large id (Option.some.inj found).symm) (Nat.not_lt_of_le bound)
  have seated_b := (parked b hb).seated
  have bracketed_b := isCollection_of_index? hindex'
  have names : b.field.path.last.names = e.field.path.last.names := by rw [Segment.names, Segment.names, name]
  have absent_m : g.spans (.sequence .array id) (Numeral.text m) = false := by
    rw [spans, slot?_sequence_text, List.getElem?_eq_none (by omega)]
    rfl
  obtain ⟨anchored_b, place_b⟩ : Anchored g root b ∧ b.field.path.holderRoute = ρ := by
    cases howner : e.owner with
    | none =>
      rw [howner] at owner
      refine ⟨fun o ho => (by cases owner.symm.trans ho), ?_⟩
      rw [← place, seated_b.wellFormed.holderRoute_of_root (seated_b.atRoot owner),
        seated.wellFormed.holderRoute_of_root (seated.atRoot howner)]
    | some o =>
      rw [howner] at owner
      have opens := (seated.owner o howner).names bracketed (named (by simp [howner]))
      obtain ⟨same, -⟩ := (seated_b.owner o owner).housed.home.only _ o (anchored o howner) rfl
        (Value.address_of_holdsNames opens)
      refine ⟨fun o' ho' => ?_, ?_⟩
      · obtain rfl := Option.some.inj (owner.symm.trans ho')
        exact same ▸ anchored o howner
      · rw [← place, Path.holderRoute, Path.holderRoute, if_pos bracketed_b, if_pos bracketed, names, same]
  exact absurd_of_full tree parked graph top arrives clear hb hindex' full absent_m anchored_b place_b
    (fun owned => name ▸ named (owner ▸ owned)) h

/-- When a queue has been stored whose last entry has an owner, a trail leads to the value of this entry. -/
theorem trail_of_owner {front : List PendingWrite} {e : PendingWrite} (split : queue = front ++ [e]) {owner : Value}
    (howner : e.owner = some owner) (trail : Registry.empty.Trail g root e.field.path.followed.dropLast owner)
    (apart : ∀ d ∈ front, ¬d.field.path.route <+: e.field.path.ownerRoute)
    (h : queue.foldlM (storeQueued .empty zone) k x = (k + queue.length, x')) :
    Registry.empty.Trail x'.graph x'.root e.field.path.followed e.field.value ∧ x'.root ≠ .null := by
  have he : e ∈ queue := by simp [split]
  have ⟨seated, single, _, _, settled, _⟩ := parked e he
  have owns := seated.owner owner howner
  have more := Path.followed_ne_nil owns.below
  have arrives : g.along root e.field.path.ownerRoute = some owner := trail.along owns.value
  -- the route of the path itself is longer than that to its owner
  have clear : ∀ d ∈ queue, ¬d.field.path.route <+: e.field.path.ownerRoute := by
    intro d hd before
    rw [split, List.mem_append, List.mem_singleton] at hd
    rcases hd with hd | rfl
    · exact apart d hd before
    rw [Path.route_eq more] at before
    have lengths := before.length_le
    have labels := labels_ne_nil (seated.wellFormed.written _ (Path.last_mem_tail owns.below)) (Path.last_single single)
    rw [List.length_append] at lengths
    exact labels (List.eq_nil_of_length_eq_zero (by omega))
  have outlasts := fun d hd => outlasts_end tree parked graph top arrives clear h (e := d) hd
  have start : ∀ id, owner = .sequence .array id → owner = owner ∧ ∀ label, g.spans owner label → g.spans owner label :=
    fun _ _ => ⟨rfl, fun _ there => there⟩
  have ends : ∀ {f root'}, Follows (fun u labels => u = owner ∧ ∀ label, g.spans owner label → labels label) queue
      e.field.path.ownerRoute g root f root' → f.along root' e.field.path.ownerRoute = some owner := by
    intro f root' follows
    obtain ⟨u, found, same | ⟨_, i, -, rfl, -⟩⟩ := follows.way _ List.prefix_rfl
    · rw [found, ← same, arrives]
    · rw [found, (follows.array i found).1]
  have follows := storeAll_follows tree parked graph top arrives clear outlasts start (fun d hd => hd) h
  rw [split] at h
  obtain ⟨y, audits, run, applied⟩ := storeAll_concat h
  have mem : ∀ d ∈ front, d ∈ queue := fun d hd => by simp [split, hd]
  have follows₁ := storeAll_follows tree parked graph top arrives (fun d hd => clear d (mem d hd)) outlasts start mem
    run
  rw [settled] at applied
  have holds := storeAll_holds tree parked graph top mem run
  obtain ⟨-, leads⟩ := apply_follows (w := { y with audits }) follows₁ holds parked he (outlasts e he) (clear e he)
    applied
  have leads := leads owner howner rfl (ends follows₁)
  obtain ⟨_, -, found, trail'⟩ := trail.alike owns.value fun π u front arrives' => by
    obtain ⟨u', found, same | ⟨id, id', same, rfl, -⟩⟩ := follows.way π front
    · exact ⟨u', found, .inl (Option.some.inj (same.symm.trans arrives'))⟩
    · exact ⟨_, found, .inr ⟨id, id', Option.some.inj (arrives'.symm.trans same), rfl⟩⟩
  obtain rfl := Option.some.inj (found.symm.trans (ends follows))
  have followed : e.field.path.followed.dropLast ++ [e.field.path.last] = e.field.path.followed := by
    rw [← Path.getLast_followed more, List.dropLast_concat_getLast]
  rw [← followed]
  exact ⟨trail'.snoc leads, trail'.start_ne_null leads.value⟩

end Way

/-- A value that is stored in the root, or in an element of it, is where its path leads to. -/
theorem storeRoot_leads {path : Path} {v : Value} (wellFormed : path.WellFormed) (single : path.hasWildcard = false)
    (atRoot : path.tail = []) (has_root : w.graph.Has w.root) (shown : v ≠ .null ∨ path.followed ≠ [])
    (h : (storeRoot path path.last v).run w = (.ok ⟨⟩, w')) :
    Registry.empty.Trail w'.graph w'.root path.followed v ∧ w'.root ≠ .null := by
  have last := Path.last_of_root atRoot
  by_cases bracketed : path.last.isCollection
  case neg =>
    have followed : path.followed = [] := by rw [Path.followed_of_plain (last ▸ bracketed), atRoot]
    rw [storeRoot_of_plain (slot?_eq_none (by simpa using bracketed))] at h
    cases h
    rw [followed]
    exact ⟨.here v, by simpa [followed] using shown⟩
  have followed : path.followed = [path.last] := by
    rw [Path.followed_of_bracketed (last ▸ bracketed), atRoot, last]
  obtain ⟨slot, hslot⟩ := slot?_of_single bracketed (Path.last_single single)
  have has₁ := has_withRootPlace has_root slot
  obtain ⟨f, store, rfl⟩ := storeRoot_ok hslot h
  generalize w.withRootPlace slot = w₁ at store has₁
  obtain ⟨fit, put⟩ := storeElement_rewrites has₁ store
  have value : w₁.root ≠ .null := by
    intro null
    exact address_of_fits fit (by rw [null]; rfl)
  have unnamed : path.last.name = "" := last ▸ wellFormed.head_name
  have reads : Registry.empty.yieldAt f w₁.root path.last.name = .ok (.held w₁.root) := by
    rw [Registry.yieldAt_empty, if_pos unnamed]
  rw [followed]
  exact ⟨.step (leads_of_stored value bracketed (Path.last_single single) hslot reads fit put) (.here v), value⟩

/-- The last write of a commit is what its path reads. -/
theorem commit_read_last {fields : List Field} {last : Field} {w₁ w₂ : Writer}
    (tree : w.graph.Treelike w.root) (idle : w.pending = [])
    (parsed : ∀ field ∈ fields ++ [last], ∃ text, Path.parse text = .ok field.path)
    (writes : WritesFresh zone w (fields ++ [last]) w₁)
    (committed : commit .empty zone w₁ = ((fields ++ [last]).length, w₂))
    (apart : last.path.tail ≠ [] →
      ∀ field ∈ fields, ¬field.path.route <+: last.path.ownerRoute)
    {entry : PendingWrite} (queued : w₁.pending.getLast? = some entry)
    (value : entry.field.value ≠ .null ∨ last.path.route ≠ []) {template : Field}
    (same : template.path = last.path) :
    ∃ f, (Registry.empty.read template w₂.root).run w₂.graph = (.ok (.field f, []), w₂.graph) ∧
      f.value = entry.field.value := by
  have wellFormed : ∀ field ∈ fields ++ [last], field.path.WellFormed := by
    intro field hfield
    obtain ⟨text, parsed⟩ := parsed field hfield
    exact Path.wellFormed_of_parse parsed
  obtain ⟨w₀, g, before, more, closed, has, fresh, written⟩ := writes.last
  have start : Parking zone w := ⟨tree, by simp [idle]⟩
  obtain ⟨parking, paths⟩ := before.parking start fun f hf => wellFormed f (by simp [hf])
  rw [idle, List.map_nil, List.nil_append] at paths
  obtain ⟨⟨tree₁, parked⟩, e, pending, path, trail⟩ := write_parks (wellFormed last (by simp))
    (parking.extends more closed) has fresh written
  simp only at pending
  have entry_eq : e = entry := by simpa [pending] using queued
  subst entry_eq
  have count : (fields ++ [last]).length = (w₀.pending ++ [e]).length := by
    have lengths := congrArg List.length paths
    simp only [List.length_map] at lengths
    simp [lengths]
  have run : (w₀.pending ++ [e]).foldlM (storeQueued .empty zone) 0 { w₁ with pending := [] } =
      (0 + (w₀.pending ++ [e]).length, w₂) := by
    rw [Nat.zero_add, ← count, ← pending]
    exact committed
  rw [pending] at parked
  have he : e ∈ w₀.pending ++ [e] := by simp
  have parked_e := parked e he
  have single : template.path.hasWildcard = false := by
    rw [same, ← path]
    exact parked_e.single
  have shown : e.field.value ≠ .null ∨ e.field.path.followed ≠ [] := by
    refine value.imp_right fun route none => route ?_
    rw [← path, Path.route, none, List.flatMap_nil]
  obtain ⟨trail', root⟩ :
      Registry.empty.Trail w₂.graph w₂.root e.field.path.followed e.field.value ∧ w₂.root ≠ .null := by
    have wellFormed_e := parked_e.seated.wellFormed
    cases howner : e.owner with
    | some owner =>
      have routes : w₀.pending.map (·.field.path.route) = fields.map (·.path.route) := by
        simpa [Function.comp_def] using congrArg (List.map Path.route) paths
      refine trail_of_owner (x := { w₁ with pending := [] }) tree₁ parked rfl rfl rfl howner
        (path ▸ trail owner howner) (fun d hd => ?_) run
      have mem : d.field.path.route ∈ fields.map (·.path.route) := routes ▸ List.mem_map_of_mem hd
      obtain ⟨field, hfield, route⟩ := List.mem_map.1 mem
      have below := (parked_e.seated.owner owner howner).below
      rw [path] at below ⊢
      exact route ▸ apart below field hfield
    | none =>
      obtain ⟨y, audits, others, applied⟩ := storeAll_concat run
      rw [parked_e.settled] at applied
      have holds := storeAll_holds (x := { w₁ with pending := [] }) tree₁ parked rfl rfl
        (fun d hd => List.mem_append_left [e] hd) others
      simp only [apply, howner] at applied
      exact storeRoot_leads (w := { y with audits }) wellFormed_e parked_e.single (parked_e.seated.atRoot howner)
        holds.has_root shown applied
  rw [path, ← same] at trail'
  exact ⟨_, Registry.Trail.read single root trail', rfl⟩

/-- A value that is queued for a place on the way hides the last write, and a root that has become null is not
read. -/
theorem commit_read_last_hidden :
    let w : Writer := { graph := .empty, root := .null }
    let a : Segment := ⟨"a", .plain, false⟩
    let above : Field := { path := ⟨.root, [a]⟩, value := .scalar (.string "x") }
    let below : Field :=
      { path := ⟨.root, [a, ⟨"b", .plain, false⟩]⟩, value := .scalar (.string "y") }
    let date : Field := { path := .root, type := some (.scalar .date), value := .scalar (.bool true) }
    (w.graph.Treelike w.root ∧ w.pending = [] ∧ Path.parse "/a" = .ok above.path ∧
      Path.parse "/a/b" = .ok below.path ∧ Path.parse "/" = .ok date.path) ∧
    (∃ w₁ w₂ entry f audits, WritesFresh .utc w [above, below] w₁ ∧
      w₁.pending.getLast? = some entry ∧ commit .empty .utc w₁ = (2, w₂) ∧ w₂.audits = w₁.audits ∧
      ((Registry.empty.read below w₂.root).run w₂.graph).1 = .ok (.field f, audits) ∧
      f.value ≠ entry.field.value) ∧
    ∃ w₁ w₂ fault, WritesFresh .utc w [date] w₁ ∧ commit .empty .utc w₁ = (1, w₂) ∧
      w₂.audits = w₁.audits ∧ ((Registry.empty.read date w₂.root).run w₂.graph).1 = .error fault := by
  intro w a above below date
  have tree : w.graph.Treelike w.root := .null (by decide)
  have parking : Parking .utc w := ⟨tree, by simp [w]⟩
  have parsed_a : Path.parse "/a" = .ok above.path := by cbv
  have parsed_b : Path.parse "/a/b" = .ok below.path := by cbv
  have parsed_d : Path.parse "/" = .ok date.path := by cbv
  refine ⟨⟨tree, rfl, parsed_a, parsed_b, parsed_d⟩, ?_, ?_⟩
  · have written := Running.eq_of_fst (a := [.ok ⟨⟩, .ok ⟨⟩])
      (p := writeEach .empty .utc [above, below] w) (by cbv)
    have committed := Running.eq_of_fst (a := 2)
      (p := commit .empty .utc (writeEach .empty .utc [above, below] w).2) (by cbv)
    have queued : (writeEach .empty .utc [above, below] w).2.pending.getLast? =
        some ⟨below, some (.map 1), none⟩ := by cbv
    have quiet : (commit .empty .utc (writeEach .empty .utc [above, below] w).2).2.audits =
        (writeEach .empty .utc [above, below] w).2.audits := by cbv
    have read : ((Registry.empty.read below (commit .empty .utc
        (writeEach .empty .utc [above, below] w).2).2.root).run (commit .empty .utc
          (writeEach .empty .utc [above, below] w).2).2.graph).1 =
        .ok (.field { below with value := .null }, []) := by cbv
    generalize (writeEach .empty .utc [above, below] w).2 = w₁ at written committed queued quiet read
    generalize (commit .empty .utc w₁).2 = w₂ at committed quiet read
    have writes := WritesFresh.of_writeEach parking
      (by simpa using ⟨Path.wellFormed_of_parse parsed_a, Path.wellFormed_of_parse parsed_b⟩)
      (by simp [above, below, Value.address?]) written (by simp)
    exact ⟨w₁, w₂, _, _, [], writes, queued, committed, quiet, read, by simp [below]⟩
  · have written := Running.eq_of_fst (a := [.ok ⟨⟩]) (p := writeEach .empty .utc [date] w) rfl
    have committed := Running.eq_of_fst (a := 1)
      (p := commit .empty .utc (writeEach .empty .utc [date] w).2) rfl
    have quiet : (commit .empty .utc (writeEach .empty .utc [date] w).2).2.audits =
        (writeEach .empty .utc [date] w).2.audits := rfl
    have root : (commit .empty .utc (writeEach .empty .utc [date] w).2).2.root = .null := rfl
    generalize (writeEach .empty .utc [date] w).2 = w₁ at written committed quiet root
    generalize (commit .empty .utc w₁).2 = w₂ at committed quiet root
    have writes := WritesFresh.of_writeEach parking
      (by simpa using Path.wellFormed_of_parse parsed_d) (by simp [date, Value.address?]) written
      (by simp)
    exact ⟨w₁, w₂, .noDocument date.path.text, writes, committed, quiet, by rw [root]; rfl⟩

/-- Two cells of an array that is made for the first and has to be longer for the second. -/
theorem commit_read_last_cell :
    let w : Writer := { graph := .empty, root := .null }
    let cell (n : Nat) : Field :=
      { path := ⟨.root, [⟨"cells", .element .array (some n), false⟩]⟩
        value := .scalar (.string "x") }
    ∃ w₁ w₂ entry, (w.graph.Treelike w.root ∧ w.pending = [] ∧
      (∀ field ∈ [cell 0] ++ [cell 2], ∃ text, Path.parse text = .ok field.path) ∧
      WritesFresh .utc w ([cell 0] ++ [cell 2]) w₁ ∧
      commit .empty .utc w₁ = (([cell 0] ++ [cell 2]).length, w₂) ∧
      ((cell 2).path.tail ≠ [] →
        ∀ field ∈ [cell 0], ¬field.path.route <+: (cell 2).path.ownerRoute) ∧
      w₁.pending.getLast? = some entry ∧ (entry.field.value ≠ .null ∨ (cell 2).path.route ≠ [])) ∧
      ∃ f, (Registry.empty.read (cell 2) w₂.root).run w₂.graph = (.ok (.field f, []), w₂.graph) ∧
        f.value = entry.field.value := by
  intro w cell
  have tree : w.graph.Treelike w.root := .null (by decide)
  have parsed_0 : Path.parse "/cells[0]" = .ok (cell 0).path := by cbv
  have parsed_2 : Path.parse "/cells[2]" = .ok (cell 2).path := by cbv
  have parsed : ∀ field ∈ [cell 0] ++ [cell 2], ∃ text, Path.parse text = .ok field.path := by
    simpa using ⟨⟨_, parsed_0⟩, ⟨_, parsed_2⟩⟩
  have written := Running.eq_of_fst (a := [.ok ⟨⟩, .ok ⟨⟩])
    (p := writeEach .empty .utc ([cell 0] ++ [cell 2]) w) (by cbv)
  have committed := Running.eq_of_fst (a := 2)
    (p := commit .empty .utc (writeEach .empty .utc ([cell 0] ++ [cell 2]) w).2) (by cbv)
  have queued : (writeEach .empty .utc ([cell 0] ++ [cell 2]) w).2.pending.getLast? =
      some ⟨cell 2, some (.map 0), none⟩ := by cbv
  generalize (writeEach .empty .utc ([cell 0] ++ [cell 2]) w).2 = w₁ at written committed queued
  generalize (commit .empty .utc w₁).2 = w₂ at committed
  have parking : Parking .utc w := ⟨tree, by simp [w]⟩
  have writes := WritesFresh.of_writeEach parking
    (by simpa using ⟨Path.wellFormed_of_parse parsed_0, Path.wellFormed_of_parse parsed_2⟩)
    (by simp [cell, Value.address?]) written (by simp)
  have apart : (cell 2).path.tail ≠ [] →
      ∀ field ∈ [cell 0], ¬field.path.route <+: (cell 2).path.ownerRoute := fun _ => by decide
  have value : (cell 2).value ≠ .null ∨ (cell 2).path.route ≠ [] := .inl (by simp [cell])
  exact ⟨w₁, w₂, _, ⟨tree, rfl, parsed, writes, committed, apart, queued, value⟩,
    commit_read_last tree rfl parsed writes committed apart queued value rfl⟩

end Writer

end FieldBinding
