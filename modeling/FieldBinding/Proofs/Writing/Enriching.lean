import FieldBinding.Proofs.Graph.Enriching
import FieldBinding.Proofs.Writing.Making

/-!
# Preparing enriches

Every step on the way to a place enriches the graph, also one that fails: an array is copied before the copy
takes its place, and nothing that can fail comes after a change.  So a document is enriched by `Writer.prepare`,
whatever it answers.  No slot is lost on the way if there is room for the indexes of the path (`Path.Roomy`).

Main results:

* `Writer.ownerFrom_enriches` — the walk enriches the graph.
* `Writer.prepare_of_reach` — preparing makes the root, and follows the path from there.
* `Writer.prepare_enriches` — preparing enriches the document, and does not touch the queue.
-/

namespace FieldBinding

open FieldBinding.Graph

variable {r : Registry} {g g' : Graph} {room : Prop}

namespace Writer

/-! ## Steps -/

theorem Obtains.enriches {v : Value} {s : Segment} {result : Except BindError Value}
    (obtains : Obtains r g v s g' result) (closed : g.Closed) (has : g.Has v) :
    g.Enriches g' room := by
  cases obtains with
  | found => exact .refl closed
  | made names missing makes put arrives =>
    have change := (Obtains.made names missing makes put arrives).change closed has
    refine .of_change change has makes.more (put.kind.trans (congrArg Node.kind (makes.more.node_eq has)))
      (fun _ => put) fun _ other c u new held => .inl ?_
    unfold onlyAt at new
    split at new
    · next same => exact missing u (same ▸ held)
    · cases new
  | refused more closed' => exact .of_extends closed more closed'

/-- A longer array holds what the array held. -/
theorem keeps_longer {id index : Nat} {f : Graph} {c : Value} (fits : HasRoom (g.sequence id).items index)
    (same : f.node c = .sequence (longer g id index)) : g.Keeps f (.sequence .array id) c := by
  intro label u held
  refine ⟨u, ?_, .inr rfl⟩
  rw [slot?, same, slot?_longer fits .array]
  cases fill : paddedAt (g.sequence id).items.length index label with
  | none => rwa [Option.none_or]
  | some v =>
    have absent : g.slot? (.sequence .array id) label = none := itemAt_eq_none_of_paddedAt fill
    simp [absent] at held

theorem node_newSequence (g : Graph) (kind : SequenceKind) (node : Sequence) :
    (g.newSequence kind node).2.node (g.newSequence kind node).1 = .sequence node := by
  simp [newSequence, Graph.node, Graph.sequence, Store.get_push_next]

/-- An owner whose array is replaced by a longer one is enriched. -/
theorem enriches_of_longer {owner : Value} {id index : Nat} {label : String} (closed : g.Closed)
    (fits : room → HasRoom (g.sequence id).items index) (has : g.Has owner) (names : owner.holdsNames)
    (held : g.slot? owner label = some (.sequence .array id))
    (put : (g.newSequence .array (longer g id index)).2.Rewrites g' owner
      (onlyAt label (g.newSequence .array (longer g id index)).1)) : g.Enriches g' room := by
  have more := newSequence_extends g .array (longer g id index)
  have address := Value.address_of_holdsNames names
  have child : g.Below owner (.sequence .array id) := .single ((g.mem_children_iff owner _).2 ⟨_, held⟩)
  have change := Change.of_newSequence closed has address (fun d hd =>
    (mem_children_of_padded hd).imp_right fun item => .tail child item) put
  refine .of_change change has more (put.kind.trans (congrArg Node.kind (more.node_eq has))) (fun _ => put)
    fun roomy other d u new held' => .inr ⟨?_, names⟩
  unfold onlyAt at new
  split at new
  case isFalse => cases new
  next same =>
  rw [same, held, Option.some.injEq] at held'
  rw [Option.some.injEq] at new
  subst held' new
  -- the longer array is no node that was there, so the change of its owner is not seen in it
  have apart : (g.newSequence .array (longer g id index)).1.address? ≠ owner.address? := by
    intro same
    exact Nat.lt_irrefl _ ((has_congr g same).2 has)
  exact .longer ((put.has _).2 (has_newSequence g .array _))
    (keeps_longer (fits roomy) ((put.kept _ apart).trans (node_newSequence g .array _)))

/-- A list that is filled up is enriched. -/
theorem enriches_of_padded {id index : Nat} (closed : g.Closed) (has : g.Has (.sequence .list id))
    (fits : room → HasRoom (g.sequence id).items index) :
    g.Enriches (g.setItems id (padded (g.sequence id).items index)) room := by
  refine .of_change (.of_padded closed has index) has (.refl g) ?_
    (fun roomy => setItems_padded_rewrites has (fits roomy)) fun _ label v u new held => ?_
  · simp only [node, Node.kind, sequence_setItems has]
  · have absent := itemAt_eq_none_of_paddedAt new
    exact absurd held (by simp [slot?, node, Node.slot?, absent])

theorem Widens.enriches {owner c : Value} {s : Segment} {result : Except BindError Value}
    (widens : Widens r g owner s c g' result) (closed : g.Closed) (has : g.Has owner)
    (reached : g.Reaches owner c) : g.Enriches g' s.Roomy := by
  have has_c := reached.has closed has
  cases widens with
  | enough => exact .refl closed
  | padded hindex list =>
    subst list
    exact enriches_of_padded closed has_c fun roomy => roomy.hasRoom hindex _
  | replaced hindex array new names held put =>
    obtain ⟨rfl, rfl⟩ := Prod.mk.inj new
    exact enriches_of_longer closed (fun roomy => roomy.hasRoom hindex _) has names (array ▸ held) put
  | refused more closed' => exact .of_extends closed more closed'

theorem Fills.enriches {c : Value} {slot : Slot} {result : Except BindError Value}
    (fills : Fills g c slot g' result) (closed : g.Closed) (has : g.Has c) : g.Enriches g' room := by
  cases fills with
  | found => exact .refl closed
  | made fit missing makes put =>
    have change := (Fills.made fit missing makes put).change closed has
    refine .of_change change has makes.more (put.kind.trans (congrArg Node.kind (makes.more.node_eq has)))
      (fun _ => put) fun _ other w u new held => .inl ?_
    unfold onlyAt at new
    split at new
    · next same => exact missing u (same ▸ held)
    · cases new
  | refused more closed' => exact .of_extends closed more closed'

/-! ## The walk -/

theorem Fills.has_of_ok {c w : Value} {slot : Slot} (fills : Fills g c slot g' (.ok w))
    (closed : g.Closed) (has : g.Has c) : g'.Has w ∧ w ≠ .null := by
  cases fills with
  | found element value =>
    exact ⟨closed c w has (mem_children_of_elementAt element value), value⟩
  | made fit missing makes put => exact ⟨(put.has _).2 makes.made.has, makes.value⟩

theorem Obtains.arrives_of_ok {v c : Value} {s : Segment} (obtains : Obtains r g v s g' (.ok c)) :
    r.yieldAt g' v s.name = .ok (.held c) ∧ c ≠ .null := by
  cases obtains with
  | found arrives value => exact ⟨arrives, value⟩
  | made names missing makes put arrives => exact ⟨arrives, makes.value⟩

section Bean

variable (bean : r.Bean)

include bean

/-- A collection that has been widened is there. -/
theorem Widens.has_of_ok {owner c c' : Value} {s : Segment}
    (widens : Widens r g owner s c g' (.ok c')) (closed : g.Closed) (has : g.Has owner)
    (arrives : r.yieldAt g owner s.name = .ok (.held c)) (value : c ≠ .null) : g'.Has c' := by
  have reached := reaches_of_yieldAt bean arrives value
  have has_c := (widens.enriches closed has reached).has c (reached.has closed has)
  cases widens with
  | enough => exact has_c
  | padded => exact has_c
  | replaced hindex array new names held put =>
    obtain ⟨rfl, rfl⟩ := Prod.mk.inj new
    exact (put.has _).2 (has_newSequence g .array _)

/-- A collection that is asked for enriches the graph, whether it is there in the end or not. -/
theorem collect_enriches {path : Path} {v : Value} {s : Segment} {next : Option Segment}
    {result : Except BindError Value} (closed : g.Closed) (has : g.Has v) (value : v ≠ .null)
    (h : (collect r path v s next).run g = (result, g')) :
    g.Enriches g' s.Roomy ∧ ∀ c, result = .ok c → g'.Has c := by
  obtain ⟨e, rfl, made⟩ | ⟨child, g₁, made, grown⟩ := Running.run_bind_cases h
  · exact ⟨(childOrCreate_obtains bean closed has value made).enriches closed has, fun _ ok => by cases ok⟩
  have obtains := childOrCreate_obtains bean closed has value made
  have enriches : g.Enriches g₁ s.Roomy := obtains.enriches closed has
  obtain ⟨arrives, child_value⟩ := obtains.arrives_of_ok
  have has₁ := enriches.has v has
  have widens := grow_widens bean enriches.closed has₁ arrives child_value grown
  have reached := reaches_of_yieldAt bean arrives child_value
  refine ⟨enriches.trans closed (widens.enriches enriches.closed has₁ reached), fun c ok => ?_⟩
  subst ok
  exact widens.has_of_ok bean enriches.closed has₁ arrives child_value

/-- A segment that is passed enriches the graph, and leads to something. -/
theorem pass_enriches {path : Path} {v : Value} {s : Segment} {next : Option Segment}
    {result : Except BindError Value} (single : s.isWildcard = false) (closed : g.Closed) (has : g.Has v)
    (value : v ≠ .null) (h : (pass r path v s next).run g = (result, g')) :
    g.Enriches g' s.Roomy ∧ ∀ w, result = .ok w → g'.Has w ∧ w ≠ .null := by
  by_cases bracketed : s.isCollection
  case neg =>
    rw [pass_of_plain (by simpa using bracketed)] at h
    have obtains := childOrCreate_obtains bean closed has value h
    have enriches : g.Enriches g' s.Roomy := obtains.enriches closed has
    refine ⟨enriches, fun w ok => ?_⟩
    subst ok
    obtain ⟨arrives, w_value⟩ := obtains.arrives_of_ok
    exact ⟨(reaches_of_yieldAt bean arrives w_value).has enriches.closed (enriches.has v has), w_value⟩
  rw [pass_of_collection bracketed] at h
  obtain ⟨e, rfl, collected⟩ | ⟨c, g₁, collected, filled⟩ := Running.run_bind_cases h
  · exact ⟨(collect_enriches bean closed has value collected).1, fun _ ok => by cases ok⟩
  obtain ⟨enriches, there⟩ := collect_enriches bean closed has value collected
  obtain ⟨slot, hslot⟩ := slot?_of_single bracketed single
  have fills := elementOrCreate_fills enriches.closed (there c rfl) hslot filled
  refine ⟨enriches.trans closed (fills.enriches enriches.closed (there c rfl)), fun w ok => ?_⟩
  subst ok
  exact fills.has_of_ok enriches.closed (there c rfl)

/-- The walk enriches the graph, whether it comes to an end or not. -/
theorem ownerFrom_enriches {path : Path} {v : Value} {segments : List Segment}
    {result : Except BindError Value} (single : ∀ s ∈ segments, s.isWildcard = false)
    (closed : g.Closed) (has : g.Has v) (value : v ≠ .null)
    (h : (ownerFrom r path v segments).run g = (result, g')) : g.Enriches g' (∀ s ∈ segments, s.Roomy) := by
  induction segments generalizing v g with
  | nil =>
    cases h
    exact .refl closed
  | cons s rest ih =>
    have first : (∀ t ∈ s :: rest, t.Roomy) → s.Roomy := fun roomy => roomy s List.mem_cons_self
    by_cases last : rest = []
    · subst last
      rw [ownerFrom_last] at h
      split at h
      · obtain ⟨e, -, collected⟩ | ⟨c, g₁, collected, stops⟩ := Running.run_bind_cases h
        · exact (collect_enriches bean closed has value collected).1.mono first
        · cases stops
          exact (collect_enriches bean closed has value collected).1.mono first
      · cases h
        exact .refl closed
    rw [ownerFrom_cons last] at h
    obtain ⟨e, -, passed⟩ | ⟨w, g₁, passed, goes⟩ := Running.run_bind_cases h
    · exact (pass_enriches bean (single s List.mem_cons_self) closed has value passed).1.mono first
    obtain ⟨enriches, there⟩ := pass_enriches bean (single s List.mem_cons_self) closed has value passed
    obtain ⟨has₁, value₁⟩ := there w rfl
    have onward := ih (fun t ht => single t (List.mem_cons_of_mem s ht)) enriches.closed has₁ value₁ goes
    exact (enriches.mono first).trans closed (onward.mono fun roomy t ht => roomy t (List.mem_cons_of_mem s ht))

end Bean

/-! ## The queue -/

/-- A step on the graph of a document changes nothing else of the document. -/
theorem onGraph_run {α : Type} (step : Step α) (w : Writer) :
    (onGraph step).run w = ((step.run w.graph).1, { w with graph := (step.run w.graph).2 }) := by
  unfold onGraph
  simp only [Running.run_bind, Running.run_get]
  obtain ⟨result, graph⟩ := step.run w.graph
  simp only [Running.run_bind, Running.run_set, Running.run_liftExcept]

/-- The queue and the remarks are as they were. -/
structure Idle (w w' : Writer) : Prop where
  pending : w'.pending = w.pending
  audits : w'.audits = w.audits

theorem Idle.trans {w w₁ w' : Writer} (a : Idle w w₁) (b : Idle w₁ w') : Idle w w' :=
  ⟨b.pending.trans a.pending, b.audits.trans a.audits⟩

theorem growRoot_idle (index : Nat) (w : Writer) : Idle w (growRoot index w).2 := by
  cases grows : w.graph.grow w.root index with
  | none =>
    rw [growRoot_kept grows]
    exact ⟨rfl, rfl⟩
  | some grown =>
    rw [growRoot_grown grows]
    exact ⟨rfl, rfl⟩

theorem ensureRoot_idle (segment : Segment) (w : Writer) : Idle w (ensureRoot segment w).2 := by
  have made : Idle w (w.withRoot segment.selector.bracket?) := by
    by_cases missing : w.root = .null
    · rw [withRoot_of_null missing]
      exact ⟨rfl, rfl⟩
    · rw [withRoot_of_value missing]
      exact ⟨rfl, rfl⟩
  rw [ensureRoot_eq]
  cases segment.selector.index? with
  | none => exact made
  | some index => exact made.trans (growRoot_idle index _)

/-! ## Preparing -/

/-- The way from the root of a document to the owner of the last segment of a path. -/
def reach (r : Registry) (path : Path) (root : Value) : Step Value := do
  let start ← if path.head.isCollection then elementOrCreate r path root path.head path.tail.head? else pure root
  ownerFrom r path start path.tail

/-- A path with wildcards is refused. -/
theorem prepare_of_wild (r : Registry) {path : Path} (wild : path.hasWildcard) (w : Writer) :
    (prepare r path).run w = (.error (.shape path.text .wildcardWrite), w) := by
  unfold prepare
  simp only [wild, if_true]
  rfl

/-- A path that is its root alone is prepared by making the root. -/
theorem prepare_of_root {path : Path} (single : path.hasWildcard = false) (atRoot : path.tail = [])
    {w w₁ : Writer} (rooted : ensureRoot path.head w = (⟨⟩, w₁)) :
    (prepare r path).run w = (.ok none, w₁) := by
  unfold prepare
  simp only [single, Bool.false_eq_true, if_false, Running.run_bind, Running.run_monadLift, rooted, Path.isRoot,
    atRoot, List.isEmpty_nil, if_true, Running.run_pure]

/-- A path below the root is prepared by making the root and following the path from there. -/
theorem prepare_of_reach {path : Path} (single : path.hasWildcard = false) (below : path.tail ≠ [])
    {w w₁ : Writer} {graph : Graph} {result : Except BindError Value}
    (rooted : ensureRoot path.head w = (⟨⟩, w₁))
    (reached : (reach r path w₁.root).run w₁.graph = (result, graph)) :
    (prepare r path).run w = (result.map some, { w₁ with graph }) := by
  have notRoot : path.isRoot = false := by simp [Path.isRoot, below]
  unfold prepare
  simp only [single, Bool.false_eq_true, if_false, Running.run_bind, Running.run_monadLift, rooted, notRoot,
    Running.run_get]
  unfold reach at reached
  by_cases bracketed : path.head.isCollection
  · simp only [bracketed, if_true, Running.run_bind, onGraph_run] at reached ⊢
    generalize (elementOrCreate r path w₁.root path.head path.tail.head?).run w₁.graph = first at reached ⊢
    obtain ⟨e | start, g₁⟩ := first
    · cases reached
      rfl
    · simp only at reached
      simp only [reached]
      cases result <;> rfl
  · simp only [bracketed, Bool.false_eq_true, if_false, Running.run_bind, Running.run_pure] at reached ⊢
    simp only [onGraph_run, reached]
    cases result <;> rfl

/-- Preparing does not touch the queue, for every registry. -/
theorem prepare_idle (r : Registry) (path : Path) (w : Writer) : Idle w ((prepare r path).run w).2 := by
  by_cases wild : path.hasWildcard
  · rw [prepare_of_wild r wild]
    exact ⟨rfl, rfl⟩
  have single : path.hasWildcard = false := by simpa using wild
  have ensured := ensureRoot_idle path.head w
  by_cases atRoot : path.tail = []
  · rw [prepare_of_root single atRoot rfl]
    exact ensured
  · rw [prepare_of_reach single atRoot rfl rfl]
    exact ensured.trans ⟨rfl, rfl⟩

/-! ## The document -/

/-- A writer whose root is there, in a graph without cycles below it. -/
structure Rooted (w : Writer) : Prop where
  closed : w.graph.Closed
  has : w.graph.Has w.root
  acyclic : w.graph.Acyclic w.root

/-- A document has been enriched: its graph has, and its root is what it was, or has been made, or is a longer
array. -/
structure Enriches (w w' : Writer) (room : Prop) : Prop where
  graph : w.graph.Enriches w'.graph room
  has : w'.graph.Has w'.root
  acyclic : w.graph.Acyclic w.root → w'.graph.Acyclic w'.root
  value : w.root ≠ .null → w'.root ≠ .null
  root : room → w.root = .null ∨ w.graph.Became w'.graph w.root w'.root

namespace Enriches

variable {w w₁ w' : Writer}

theorem refl (closed : w.graph.Closed) (has : w.graph.Has w.root) : w.Enriches w room :=
  ⟨.refl closed, has, fun a => a, fun h => h, fun _ => .inr (.same _)⟩

theorem mono {room' : Prop} (e : w.Enriches w' room) (weaker : room' → room) : w.Enriches w' room' :=
  { e with graph := e.graph.mono weaker, root := fun h => e.root (weaker h) }

theorem trans (closed : w.graph.Closed) (has : w.graph.Has w.root) (a : w.Enriches w₁ room)
    (b : w₁.Enriches w' room) : w.Enriches w' room where
  graph := a.graph.trans closed b.graph
  has := b.has
  acyclic h := b.acyclic (a.acyclic h)
  value h := b.value (a.value h)
  root roomy := by
    by_cases null : w.root = .null
    · exact .inl null
    refine .inr ?_
    have became₁ := (a.root roomy).resolve_left null
    exact became₁.trans a.graph b.graph roomy has ((b.root roomy).resolve_left (became₁.ne_null null))

/-- A graph that is enriched under the root. -/
theorem of_graph (has : w.graph.Has w.root) {graph : Graph} (enriches : w.graph.Enriches graph room) :
    w.Enriches { w with graph } room :=
  ⟨enriches, enriches.has _ has, enriches.acyclic _ has, fun h => h, fun _ => .inr (.same _)⟩

/-- What is neither in the graph nor the root does not matter. -/
theorem of_same (closed : w.graph.Closed) (has : w.graph.Has w.root) (graph : w'.graph = w.graph)
    (root : w'.root = w.root) : w.Enriches w' room := by
  refine ⟨?_, ?_, ?_, ?_, fun _ => .inr ?_⟩
  · rw [graph]
    exact .refl closed
  · rwa [graph, root]
  · rw [graph, root]
    exact fun a => a
  · rw [root]
    exact fun h => h
  · rw [root]
    exact .same _

theorem rooted (e : w.Enriches w' room) (rooted : w.Rooted) : w'.Rooted :=
  ⟨e.graph.closed, e.has, e.acyclic rooted.acyclic⟩

end Enriches

theorem growRoot_enriches {w : Writer} (closed : w.graph.Closed) (has : w.graph.Has w.root)
    (index : Nat) : w.Enriches (growRoot index w).2 (index + 1 < 2 ^ 64) := by
  cases hgrow : w.graph.grow w.root index with
  | none =>
    rw [growRoot_kept hgrow]
    exact .refl closed has
  | some grown =>
    obtain ⟨root, graph⟩ := grown
    rw [growRoot_grown hgrow]
    rcases grow_cases hgrow with ⟨rfl, rfl⟩ | ⟨id, hroot, rfl, rfl⟩ | ⟨id, hroot, -, new⟩
    · exact .refl closed has
    · refine .of_graph has ?_
      exact enriches_of_padded closed (hroot ▸ has) fun fits _ => fits
    · obtain ⟨rfl, rfl⟩ := Prod.mk.inj new
      rw [hroot] at has
      have items : ∀ d ∈ (longer w.graph id index).items,
          d = .null ∨ d ∈ w.graph.children (.sequence .array id) := fun d hd =>
        mem_children_of_padded hd
      have held : ∀ d ∈ (longer w.graph id index).items, w.graph.Has d := by
        intro d hd
        rcases items d hd with rfl | child
        · trivial
        · exact closed _ d has child
      have more := newSequence_extends w.graph .array (longer w.graph id index)
      refine ⟨.of_extends closed more (newSequence_closed closed .array _ held),
        has_newSequence w.graph .array _, fun acyclic => .of_children fun d hd => ?_,
        fun _ => by simp, fun fits => .inr ?_⟩
      · have item : d ∈ (longer w.graph id index).items := by
          simpa [newSequence, Graph.children, Graph.sequence, Store.get_push_next, longer] using hd
        have below : w.graph.Acyclic d := by
          rcases items d item with rfl | child
          · exact .null _
          · exact (hroot ▸ acyclic).inv child
        exact below.grown more closed (held d item)
      · rw [hroot]
        exact .longer (has_newSequence w.graph .array _)
          (keeps_longer (fun _ => fits) (node_newSequence w.graph .array _))

/-- A root that is asked for is there. -/
theorem ensureRoot_enriches {w : Writer} (closed : w.graph.Closed) (has : w.graph.Has w.root)
    (segment : Segment) :
    w.Enriches (ensureRoot segment w).2 segment.Roomy ∧ (ensureRoot segment w).2.root ≠ .null := by
  obtain ⟨enriches₁, value₁⟩ : w.Enriches (w.withRoot segment.selector.bracket?) segment.Roomy ∧
      (w.withRoot segment.selector.bracket?).root ≠ .null := by
    by_cases missing : w.root = .null
    · have makes := emptyCollection_makes closed segment.selector.bracket?
      rw [withRoot_of_null missing]
      exact ⟨⟨.of_extends closed makes.more makes.closed, makes.made.has, fun _ => makes.made.acyclic,
        fun _ => makes.value, fun _ => .inl missing⟩, makes.value⟩
    · rw [withRoot_of_value missing]
      exact ⟨.refl closed has, missing⟩
  rw [ensureRoot_eq]
  cases hindex : segment.selector.index? with
  | none => exact ⟨enriches₁, value₁⟩
  | some index =>
    have enriches₂ := growRoot_enriches enriches₁.graph.closed enriches₁.has index
    exact ⟨enriches₁.trans closed has (enriches₂.mono fun roomy => roomy index hindex), enriches₂.value value₁⟩

/-- The way from the root enriches the graph, whatever it answers. -/
theorem reach_enriches (bean : r.Bean) {path : Path} (single : path.hasWildcard = false) {root : Value}
    {result : Except BindError Value} (closed : g.Closed) (has : g.Has root) (value : root ≠ .null)
    (h : (reach r path root).run g = (result, g')) : g.Enriches g' path.Roomy := by
  have tail : path.Roomy → ∀ s ∈ path.tail, s.Roomy := fun roomy s hs => roomy s (List.mem_cons_of_mem _ hs)
  have single_tail := fun s hs => Path.single_of_mem single (s := s) (List.mem_cons_of_mem _ hs)
  unfold reach at h
  by_cases bracketed : path.head.isCollection
  case neg =>
    rw [if_neg bracketed, pure_bind] at h
    exact (ownerFrom_enriches bean single_tail closed has value h).mono tail
  obtain ⟨slot, hslot⟩ := slot?_of_single bracketed (Path.single_of_mem single List.mem_cons_self)
  simp only [bracketed, if_true, Running.run_bind] at h
  generalize helement : (elementOrCreate r path root path.head path.tail.head?).run g = element at h
  obtain ⟨answer, g₁⟩ := element
  have fills := elementOrCreate_fills closed has hslot helement
  have filled : g.Enriches g₁ path.Roomy := fills.enriches closed has
  cases answer with
  | error e =>
    cases h
    exact filled
  | ok start =>
    obtain ⟨has₁, start_value⟩ := fills.has_of_ok closed has
    exact filled.trans closed ((ownerFrom_enriches bean single_tail filled.closed has₁ start_value h).mono tail)

/-- Preparing enriches the document, whatever it answers. -/
theorem prepare_enriches (bean : r.Bean) {path : Path} {w w' : Writer}
    {result : Except BindError (Option Value)} (closed : w.graph.Closed) (has : w.graph.Has w.root)
    (h : (prepare r path).run w = (result, w')) : w.Enriches w' path.Roomy := by
  by_cases wild : path.hasWildcard
  · rw [prepare_of_wild r wild] at h
    cases h
    exact .refl closed has
  have single : path.hasWildcard = false := by simpa using wild
  obtain ⟨enriches₁, value₁⟩ := ensureRoot_enriches closed has path.head
  replace enriches₁ := enriches₁.mono fun roomy : path.Roomy => roomy path.head List.mem_cons_self
  by_cases atRoot : path.tail = []
  · rw [prepare_of_root single atRoot rfl] at h
    cases h
    exact enriches₁
  · rw [prepare_of_reach single atRoot rfl rfl] at h
    cases h
    exact enriches₁.trans closed has
      (.of_graph enriches₁.has (reach_enriches bean single enriches₁.graph.closed enriches₁.has value₁ rfl))

end Writer

end FieldBinding
