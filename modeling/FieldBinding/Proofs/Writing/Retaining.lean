import FieldBinding.Proofs.Writing.Turns

/-!
# Objects that keep their types

A writer makes nodes, fills lists, and puts values into entries, elements and members, and a setter writes a property
of an object.  None of these turns an object into one of another type.  What others do between two turns is not up to
the writer, so it has to be asked of them.

`Step.Retains` is closed under what steps are made of, and each step of the writer is a chain of these.  It also holds
of a step that fails, since what has been done before stays done.

Main results:

* `Registry.setChild_retains` — a stored child leaves the types of objects as they were.
* `Writer.prepare_retains`, `Writer.populate_retains`, `Writer.commit_retains` — so do the three stages of a write.
* `Writer.Run.retains` — objects keep their types in a run.
-/

namespace FieldBinding

open FieldBinding.Graph

/-- A value that is stored in a place leaves the type of the object as it was. -/
theorem Registry.Place.store_typeName {p : Registry.Place} {o o' : Object} {v : Value} (stored : p.store o v = .ok o') :
    o'.typeName = o.typeName := by
  cases p with
  | member m => exact Except.ok.inj stored ▸ rfl
  | setter s =>
    rw [Place.store] at stored
    cases made : s.store o v with
    | error reason =>
      rw [made] at stored
      cases stored
    | ok o'' =>
      rw [made] at stored
      exact Except.ok.inj stored ▸ s.store_typeName o o'' v made

/-- All objects are still there, and of the types that they were of. -/
def Graph.Retains (g g' : Graph) : Prop :=
  ∀ id, g.Has (.object id) → g'.Has (.object id) ∧ (g'.object id).typeName = (g.object id).typeName

variable {r : Registry} {g g₁ g' : Graph}

namespace Graph.Retains

theorem refl (g : Graph) : g.Retains g :=
  fun _ has => ⟨has, rfl⟩

theorem trans (a : g.Retains g₁) (b : g₁.Retains g') : g.Retains g' := by
  intro id has
  obtain ⟨has₁, same₁⟩ := a id has
  obtain ⟨has', same'⟩ := b id has₁
  exact ⟨has', same'.trans same₁⟩

theorem of_extends (more : g.Extends g') : g.Retains g' := by
  intro id has
  obtain ⟨has', same⟩ := more.objects id has
  exact ⟨has', congrArg Object.typeName same⟩

/-- Sequences and maps do not matter. -/
theorem of_objects (same : g'.objects = g.objects) : g.Retains g' := by
  intro id has
  refine ⟨?_, by rw [object, same, object]⟩
  rwa [Has, same]

theorem setObject {id : NodeId} {o : Object} (same : o.typeName = (g.object id).typeName) :
    g.Retains (g.setObject id o) := by
  intro other has
  refine ⟨by simpa [Has, Graph.setObject, Store.size_set] using has, ?_⟩
  by_cases here : id = other
  · subst here
    rw [← same]
    exact congrArg Object.typeName (Store.get_set_self has o)
  · exact congrArg Object.typeName (Store.get_set_ne g.objects here o)

theorem grow {c c' : Value} {index : Nat} (grows : g.grow c index = some (c', g')) : g.Retains g' := by
  rcases Writer.grow_cases grows with ⟨-, rfl⟩ | ⟨id, -, -, rfl⟩ | ⟨id, -, -, new⟩
  · exact refl _
  · exact of_objects rfl
  · rw [(Prod.mk.inj new).2]
    exact of_extends (newSequence_extends g .array _)

theorem storeElement {path : Path} {c v : Value} {slot : Slot} (stored : g.storeElement path c slot v = .ok g') :
    g.Retains g' := by
  refine of_objects ?_
  unfold Graph.storeElement at stored
  split at stored
  · unfold setItem? at stored
    simp only at stored
    split at stored
    · next set =>
      split at set
      · rw [← Except.ok.inj stored, ← Option.some.inj set]
        rfl
      · cases set
    · cases stored
  · rw [← Except.ok.inj stored]
    rfl
  · rw [← Except.ok.inj stored]
    rfl
  · cases stored

end Graph.Retains

/-- A computation retains the types of objects, whatever comes of it. -/
def Step.Retains {α : Type} (x : Step α) : Prop :=
  ∀ g : Graph, g.Retains (x.run g).2

namespace Step.Retains

variable {α β : Type} {x : Step α}

theorem pure (a : α) : Step.Retains (pure a) :=
  Graph.Retains.refl

theorem throw (e : BindError) : Step.Retains (throw e : Step α) :=
  Graph.Retains.refl

theorem bind {k : α → Step β} (first : x.Retains) (rest : ∀ a, (k a).Retains) : (x >>= k).Retains := by
  intro g
  have retained := first g
  rw [Running.run_bind]
  generalize x.run g = answer at retained ⊢
  obtain ⟨e | a, g₁⟩ := answer
  · exact retained
  · exact retained.trans (rest a g₁)

theorem get {k : Graph → Step β} (rest : ∀ g, (k g).Retains) : Step.Retains (get >>= k) :=
  fun g => rest g g

theorem alloc {f : Graph → α × Graph} (more : ∀ g : Graph, g.Extends (f g).2) : (Step.alloc f).Retains :=
  fun g => .of_extends (more g)

theorem of_runs (h : ∀ g result g', x.run g = (result, g') → g.Retains g') : x.Retains :=
  fun g => h g _ _ rfl

theorem run {g g' : Graph} {result : Except BindError α} (retains : x.Retains) (h : x.run g = (result, g')) :
    g.Retains g' := by
  have retained := retains g
  rwa [h] at retained

theorem child (r : Registry) (v : Value) (name : String) : (r.child v name).Retains :=
  .of_runs fun _ _ _ h => .of_extends (Writer.child_extends h)

end Step.Retains

namespace Registry

theorem instantiate_extends {tag : TypeTag} {v : Value} (made : r.instantiate g tag = .ok (v, g')) :
    g.Extends g' := by
  cases tag with
  | complex name =>
    simp only [instantiate] at made
    cases found : r.get? name with
    | none =>
      rw [found] at made
      cases made
    | some d =>
      simp only [found] at made
      split at made
      · cases made
      cases planned : d.blueprint with
      | none =>
        rw [planned] at made
        exact (Prod.mk.inj (Except.ok.inj made)).2 ▸ newObject_extends g _
      | some b =>
        rw [planned] at made
        exact (Prod.mk.inj (Except.ok.inj made)).2 ▸ plant_extends g (.object b.typeName b.members)
  | sequence kind element => exact (Prod.mk.inj (Except.ok.inj made)).2 ▸ newSequence_extends g kind _
  | map element => exact (Prod.mk.inj (Except.ok.inj made)).2 ▸ newMap_extends g _
  | any => exact (Prod.mk.inj (Except.ok.inj made)).2 ▸ newMap_extends g _
  | primitive kind => exact (Prod.mk.inj (Except.ok.inj made)).2 ▸ .refl g
  | scalar kind => exact (Prod.mk.inj (Except.ok.inj made)).2 ▸ .refl g

theorem instantiate_retains (tag : TypeTag) : (Step.attempt fun g => r.instantiate g tag).Retains := by
  intro g
  rw [Step.attempt_run]
  cases made : r.instantiate g tag with
  | error e => exact .refl g
  | ok a => exact .of_extends (instantiate_extends made)

/-- A value that is stored as a child leaves the types of objects as they were. -/
theorem setChild_retains (owner : Value) (name : String) (v : Value) (hint : Option TypeTag) :
    (r.setChild owner name v hint).Retains := by
  refine .of_runs fun g result g' h => ?_
  cases setChild_runs h with
  | entry => exact .of_objects rfl
  | raw => exact .setObject rfl
  | stored object known found nullable store => exact .setObject (Place.store_typeName store)
  | _ => exact .refl g

end Registry

namespace Writer

theorem emptyCollection_extends (bracket : Option Bracket) (g : Graph) : g.Extends (emptyCollection g bracket).2 := by
  unfold emptyCollection
  split
  · exact newSequence_extends g _ _
  · exact newMap_extends g _

theorem intermediate_retains (path : Path) (declared : Option TypeTag) (next : Option Segment) :
    (intermediate r path declared next).Retains := by
  unfold intermediate
  split
  · exact .alloc (emptyCollection_extends _)
  · exact .alloc (emptyCollection_extends _)
  · split
    · exact Registry.instantiate_retains _
    · exact .throw _

theorem newChild_retains (path : Path) (declared : Option TypeTag) (s : Segment) (next : Option Segment) :
    (newChild r path declared s next).Retains := by
  unfold newChild
  split
  · split
    · exact Registry.instantiate_retains _
    · exact .alloc (emptyCollection_extends _)
  · exact intermediate_retains path declared next

theorem elementOrCreate_retains (path : Path) (c : Value) (s : Segment) (next : Option Segment) :
    (elementOrCreate r path c s next).Retains := by
  refine .of_runs fun g result g' h => ?_
  cases elementOrCreate_runs h with
  | placeless => exact .refl g
  | found => exact .refl g
  | unmade hslot missing make => exact (intermediate_retains path _ next).run make
  | unstored hslot missing make store => exact (intermediate_retains path _ next).run make
  | made hslot missing make store => exact ((intermediate_retains path _ next).run make).trans (.storeElement store)

theorem childOrCreate_retains (path : Path) (v : Value) (s : Segment) (next : Option Segment) :
    (childOrCreate r path v s next).Retains := by
  refine .of_runs fun g result g' h => ?_
  have moved := Step.Retains.child r v s.name
  cases childOrCreate_runs h with
  | unnamed => exact .refl g
  | lost named child => exact moved.run child
  | found named child => exact moved.run child
  | unmade named child make => exact (moved.run child).trans ((newChild_retains path _ s next).run make)
  | unstored named child make put =>
    exact ((moved.run child).trans ((newChild_retains path _ s next).run make)).trans
      ((Registry.setChild_retains v s.name _ _).run put)
  | made named child make put =>
    exact ((moved.run child).trans ((newChild_retains path _ s next).run make)).trans
      ((Registry.setChild_retains v s.name _ _).run put)

theorem grow_retains (path : Path) (owner : Value) (s : Segment) (c : Value) :
    (grow r path owner s c).Retains := by
  refine .of_runs fun g result g' h => ?_
  cases grow_runs h with
  | kept => exact .refl g
  | widened hindex grows => exact .grow grows
  | nested hindex grows => exact .grow grows
  | unstored hindex grows other named put =>
    exact (Graph.Retains.grow grows).trans ((Registry.setChild_retains owner s.name _ _).run put)
  | replaced hindex grows other named put =>
    exact (Graph.Retains.grow grows).trans ((Registry.setChild_retains owner s.name _ _).run put)

theorem collect_retains (path : Path) (v : Value) (s : Segment) (next : Option Segment) :
    (collect r path v s next).Retains :=
  (childOrCreate_retains path v s next).bind fun c => grow_retains path v s c

theorem pass_retains (path : Path) (v : Value) (s : Segment) (next : Option Segment) :
    (pass r path v s next).Retains := by
  by_cases bracketed : s.isCollection
  · rw [pass_of_collection bracketed]
    exact (collect_retains path v s next).bind fun c => elementOrCreate_retains path c s next
  · rw [pass_of_plain (by simpa using bracketed)]
    exact childOrCreate_retains path v s next

theorem ownerFrom_retains (path : Path) (v : Value) (segments : List Segment) :
    (ownerFrom r path v segments).Retains := by
  induction segments generalizing v with
  | nil => exact .pure v
  | cons s rest ih =>
    by_cases more : rest = []
    · subst more
      rw [ownerFrom_last]
      split
      · exact (collect_retains path v s none).bind fun _ => .pure v
      · exact .pure v
    · rw [ownerFrom_cons more]
      exact (pass_retains path v s rest.head?).bind ih

theorem reach_retains (path : Path) (root : Value) : (reach r path root).Retains := by
  unfold reach
  split
  · exact (elementOrCreate_retains path root path.head path.tail.head?).bind
      fun start => ownerFrom_retains path start path.tail
  · exact ownerFrom_retains path root path.tail

theorem storeChild_retains (path : Path) (target : Option TypeTag) (owner v : Value) :
    (storeChild r path target owner v).Retains := by
  refine .of_runs fun g result g' h => ?_
  have moved := Step.Retains.child r owner path.last.name
  have widens := grow_retains (r := r) path owner path.last
  cases storeChild_runs h with
  | plain plain put => exact (Registry.setChild_retains owner path.last.name v _).run put
  | placeless => exact .refl g
  | lost bracketed hslot child => exact moved.run child
  | vanished bracketed hslot child => exact moved.run child
  | short bracketed hslot child value grown => exact (moved.run child).trans ((widens _).run grown)
  | refused bracketed hslot child value grown store => exact (moved.run child).trans ((widens _).run grown)
  | stored bracketed hslot child value grown store =>
    exact ((moved.run child).trans ((widens _).run grown)).trans (.storeElement store)

theorem targetOf_retains (root : Value) (field : Field) (owner : Option Value) (hint : Option TypeTag) :
    (targetOf r root field owner hint).Retains := by
  unfold targetOf
  cases field.type with
  | some declared => exact .pure _
  | none =>
    cases owner with
    | none => exact .get fun g => .pure _
    | some node =>
      simp only
      split
      · exact (Step.Retains.child r node field.path.last.name).bind fun c => .get fun g => .pure _
      · exact .get fun g => .pure _

/-! ## Turns -/

theorem growRoot_retains (index : Nat) (w : Writer) : w.graph.Retains (growRoot index w).2.graph := by
  cases grows : w.graph.grow w.root index with
  | none =>
    rw [growRoot_kept grows]
    exact .refl _
  | some grown =>
    rw [growRoot_grown grows]
    exact .grow grows

theorem ensureRoot_retains (s : Segment) (w : Writer) : w.graph.Retains (ensureRoot s w).2.graph := by
  have more : w.graph.Retains (w.withRoot s.selector.bracket?).graph := by
    by_cases missing : w.root = .null
    · rw [withRoot_of_null missing]
      exact .of_extends (emptyCollection_extends _ _)
    · rw [withRoot_of_value missing]
      exact .refl _
  rw [ensureRoot_eq]
  cases s.selector.index? with
  | none => exact more
  | some index => exact more.trans (growRoot_retains index _)

theorem prepare_retains (path : Path) (w : Writer) :
    w.graph.Retains ((prepare r path).run w).2.graph := by
  by_cases wild : path.hasWildcard
  · rw [prepare_of_wild r wild]
    exact .refl _
  have single : path.hasWildcard = false := by simpa using wild
  have rooted := ensureRoot_retains path.head w
  by_cases atRoot : path.tail = []
  · rw [prepare_of_root single atRoot rfl]
    exact rooted
  · rw [prepare_of_reach single atRoot rfl rfl]
    exact rooted.trans (reach_retains path _ _)

theorem populate_retains {zone : Zone} {field : Field} {owner : Option Value} {w w' : Writer}
    {result : Except BindError Unit} (done : (populate r zone field owner).run w = (result, w')) :
    w.graph.Retains w'.graph := by
  rw [(populate_outcome done).1]
  exact targetOf_retains w.root field owner _ w.graph

theorem apply_retains (entry : PendingWrite) (v : Value) (w : Writer) :
    w.graph.Retains ((apply r entry v).run w).2.graph := by
  unfold apply
  cases entry.owner with
  | some owner =>
    simp only [onGraph_run]
    exact storeChild_retains entry.field.path entry.target owner v w.graph
  | none =>
    cases hslot : entry.field.path.last.selector.slot? with
    | none =>
      simp only [storeRoot_of_plain hslot]
      exact .refl _
    | some slot =>
      have placed : w.graph.Retains (w.withRootPlace slot).graph := by
        cases slot with
        | key key => exact .refl _
        | index n => exact growRoot_retains n w
      simp only [storeRoot_of_slot hslot]
      cases stored : (w.withRootPlace slot).graph.storeElement entry.field.path (w.withRootPlace slot).root slot v with
      | error e => exact placed
      | ok graph => exact placed.trans (.storeElement stored)

/-- What every act keeps of the graph holds at the end, and whenever an act is refused. -/
theorem eachNoted_keeps {α : Type} {field : α → Field} {act : α → Writing Unit} (Inv : Graph → Prop)
    (kept : ∀ a w, Inv w.graph → Inv ((act a).run w).2.graph) (as : List α) (w : Writer) (before : Inv w.graph) :
    Inv (eachNoted field act as w).2.graph ∧
      ∀ x ∈ refusals as (eachNoted field act as w).1, ∃ u, Inv u.graph ∧ ((act x.1).run u).1 = .error x.2 := by
  induction as generalizing w with
  | nil => exact ⟨before, fun x hx => nomatch hx⟩
  | cons a rest ih =>
    rw [eachNoted_cons]
    have after := kept a w before
    generalize answered : (act a).run w = answer at after
    obtain ⟨fault | u, w₁⟩ := answer
    · obtain ⟨last, refused⟩ := ih (noted (field a) (.error fault) w₁) after
      exact ⟨last, List.forall_mem_cons.2 ⟨⟨w, before, congrArg Prod.fst answered⟩, refused⟩⟩
    · exact ih w₁ after

theorem commit_retains (zone : Zone) {w : Writer} (converted : w.Converted) :
    w.graph.Retains (commit r zone w).2.graph := by
  rw [commit_run fun e he => converted e he zone]
  exact (eachNoted_keeps w.graph.Retains (fun e u before => before.trans (apply_retains e _ u))
    w.pending { w with pending := [] } (.refl _)).1

variable {w w' : Writer} {remarks : List Audit}

/-- Objects keep their types in a turn, if others let them. -/
theorem Turn.retains (turn : Turn r Graph.Retains w remarks w') (converted : w.Converted) :
    w.graph.Retains w'.graph := by
  cases turn with
  | prepared path => exact prepare_retains path w
  | queued done last => exact populate_retains done
  | refused done => exact populate_retains done
  | committed zone => exact commit_retains zone converted
  | changed root done => exact done
  | remarked other => exact .refl _

/-- So they do in a run. -/
theorem Run.retains (run : Run r Graph.Retains w remarks w') (converted : w.Converted) :
    w.graph.Retains w'.graph := by
  induction run with
  | start => exact .refl _
  | turn earlier turn ih => exact ih.trans (turn.retains (earlier.converted converted))

end Writer

end FieldBinding
