import FieldBinding.Proofs.Reading.Moves
import FieldBinding.Proofs.Reading.Places
import Mathlib.Data.List.Basic

/-!
# Reads compose

A path can be cut anywhere: reading it is the same as reading its front part and then, from every value found
there, the part behind the cut.

The two ways of reading do the same moves in a different order, and getters may make new nodes, so the values
do not have the same addresses.  What saves the statement is that nothing which is read depends on an address.  An
`Observation` is whatever can be seen of a value without looking at addresses; its content is one, and what is
seen at the end of a path is another, by `Registry.reached_keepsStep`.

Main results:

* `Registry.watch_reached_append` — following segments in two parts shows the same as following them at once.
* `Registry.read_upTo_relativeTo` — the statement for reads, up to the content of the values.
-/

namespace FieldBinding

/-! ## Observations -/

/-- A look at a value that is the same on both sides of an embedding. -/
def Observation {β : Type} (look : Graph → Value → List β) : Prop :=
  ∀ (ρ : Renaming) (g h : Graph) (v : Value), g.Closed → g.Embeds ρ h → g.Has v →
    look h (v.rename ρ) = look g v

/-- What is seen of the values of a run in the graph that it ends with. -/
def watch {β : Type} (look : Graph → Value → List β) (run : List Value × Graph) : List β :=
  run.1.flatMap (look run.2)

/-- A run from one value that keeps in step across embeddings. -/
def KeepsStep (f : Value → StateM Graph (List Value)) : Prop :=
  ∀ (ρ : Renaming) (g h : Graph) (v : Value), g.Closed → g.Embeds ρ h → g.Has v →
    ∃ ρ', Graph.InStep ρ g ρ' (f v g).2 (f (v.rename ρ) h).2 ∧
      (f (v.rename ρ) h).1 = (f v g).1.map (Value.rename ρ') ∧ ∀ w ∈ (f v g).1, (f v g).2.Has w

/-- The content of a value is an observation. -/
theorem content_observation (depth : Nat) :
    Observation fun g v => [g.contentWithin depth v] := by
  intro ρ g h v closed embeds has
  simp only [Graph.contentWithin_rename closed embeds depth has]

namespace Observation

variable {β : Type} {look : Graph → Value → List β} (steady : Observation look)

include steady

/-- A graph that grows shows the same of every value it had. -/
theorem grown {g g' : Graph} (closed : g.Closed) (grown : g.Extends g') {v : Value} (has : g.Has v) :
    look g' v = look g v := by
  simpa using steady .same g g' v closed grown.embeds has

/-- What is seen of a run that keeps in step is an observation of the value it starts from. -/
theorem watch_observation {f : Value → StateM Graph (List Value)} (keeps : KeepsStep f) :
    Observation fun g v => watch look (f v g) := by
  intro ρ g h v closed embeds has
  obtain ⟨ρ', step, same, valid⟩ := keeps ρ g h v closed embeds has
  simp only [watch, same, List.flatMap_map]
  exact List.flatMap_congr fun w hw => steady ρ' _ _ w step.closed step.embeds (valid w hw)

end Observation

/-! ## Many values -/

section Join

variable {f : Value → StateM Graph (List Value)} (keeps : KeepsStep f)

include keeps

/-- One run after another keeps in step if each does. -/
theorem joinM_inStep {ρ : Renaming} {g h : Graph} (closed : g.Closed) (embeds : g.Embeds ρ h)
    {values : List Value} (has : ∀ v ∈ values, g.Has v) :
    ∃ ρ', Graph.InStep ρ g ρ' (joinM f values g).2 (joinM f (values.map (Value.rename ρ)) h).2 ∧
      (joinM f (values.map (Value.rename ρ)) h).1 =
        (joinM f values g).1.map (Value.rename ρ') ∧
      ∀ w ∈ (joinM f values g).1, (joinM f values g).2.Has w := by
  induction values generalizing ρ g h with
  | nil => exact ⟨ρ, .refl closed embeds, rfl, by simp⟩
  | cons v rest ih =>
    obtain ⟨ρ₁, first, same, valid⟩ := keeps ρ g h v closed embeds (has v List.mem_cons_self)
    have renamed : rest.map (Value.rename ρ) = rest.map (Value.rename ρ₁) :=
      List.map_congr_left fun w hw => (first.kept w (has w (List.mem_cons_of_mem _ hw))).symm
    obtain ⟨ρ₂, others, sameAll, validAll⟩ := ih first.closed first.embeds
      fun w hw => first.grown.has (has w (List.mem_cons_of_mem _ hw))
    simp only [List.map_cons, joinM_cons, renamed]
    refine ⟨ρ₂, first.trans others, ?_, ?_⟩
    · rw [same, sameAll, List.map_append]
      congr 1
      exact List.map_congr_left fun w hw => (others.kept w (valid w hw)).symm
    · intro w hw
      rcases List.mem_append.1 hw with hw | hw
      · exact others.grown.has (valid w hw)
      · exact validAll w hw

/-- Each of many runs shows what it would show alone: the nodes that the others make do not matter. -/
theorem watch_joinM {β : Type} {look : Graph → Value → List β} (steady : Observation look)
    {g : Graph} (closed : g.Closed) {values : List Value} (has : ∀ v ∈ values, g.Has v) :
    watch look (joinM f values g) = values.flatMap fun v => watch look (f v g) := by
  induction values generalizing g with
  | nil => rfl
  | cons v rest ih =>
    have embeds := (Graph.Extends.refl g).embeds
    obtain ⟨ρ₁, first, -, valid⟩ := keeps .same g g v closed embeds (has v List.mem_cons_self)
    have later : ∀ w ∈ rest, (f v g).2.Has w := fun w hw =>
      first.grown.has (has w (List.mem_cons_of_mem _ hw))
    obtain ⟨ρ₂, others, -, -⟩ := joinM_inStep keeps first.closed (Graph.Extends.refl _).embeds later
    have rest_same : rest.flatMap (fun w => watch look (f w (f v g).2)) =
        rest.flatMap fun w => watch look (f w g) :=
      List.flatMap_congr fun w hw => (steady.watch_observation keeps).grown closed first.grown
        (has w (List.mem_cons_of_mem _ hw))
    have first_same : (f v g).1.flatMap (look (joinM f rest (f v g).2).2) = watch look (f v g) :=
      List.flatMap_congr fun w hw => steady.grown first.closed others.grown (valid w hw)
    rw [List.flatMap_cons, ← rest_same, ← ih first.closed later, ← first_same]
    simp only [watch, joinM_cons, List.flatMap_append]

end Join

namespace Registry

variable {r : Registry}

/-! ## Following segments in step -/

theorem selected_rename {ρ : Renaming} {g h : Graph} (embeds : g.Embeds ρ h) (segment : Segment)
    {child : Value} (has : g.Has child) :
    selected h segment (child.rename ρ) = (selected g segment child).map (List.map (Value.rename ρ)) := by
  unfold selected
  rw [Value.isCollection_rename]
  split
  · rfl
  split
  · rfl
  cases segment.selector.slot? with
  | some slot => simp [elementAt_rename embeds has]
  | none => simp [elements_rename embeds has, List.filter_map, Function.comp_def]

theorem selected_has {g : Graph} (closed : g.Closed) {segment : Segment} {child : Value}
    (has : g.Has child) {values : List Value} (found : selected g segment child = some values) :
    ∀ v ∈ values, g.Has v := by
  unfold selected at found
  split at found
  · cases found
    simpa using has
  split at found
  · cases found
  cases hslot : segment.selector.slot? with
  | some slot =>
    rw [hslot, Option.some.injEq] at found
    subst found
    simpa using elementAt_has closed has slot
  | none =>
    rw [hslot, Option.some.injEq] at found
    subst found
    intro v hv
    obtain ⟨e, he, rfl⟩ := List.mem_map.1 hv
    exact elements_has closed has (List.mem_of_mem_filter he)

/-- One segment keeps in step across an embedding. -/
theorem entered_inStep {ρ : Renaming} {g h : Graph} (closed : g.Closed) (embeds : g.Embeds ρ h)
    {v : Value} (has : g.Has v) (segment : Segment) :
    let x := r.entered v segment g
    let y := r.entered (v.rename ρ) segment h
    ∃ ρ', Graph.InStep ρ g ρ' x.2 y.2 ∧ y.1 = x.1.map (List.map (Value.rename ρ')) ∧
      ∀ values, x.1 = some values → ∀ w ∈ values, x.2.Has w := by
  intro x y
  by_cases value : v.isNull
  · have value' : (v.rename ρ).isNull := by rwa [Value.isNull_rename]
    simp only [x, y, entered, value, value', if_true, Running.state_pure]
    exact ⟨ρ, .refl closed embeds, rfl, by simp⟩
  have value' : ¬(v.rename ρ).isNull := by rwa [Value.isNull_rename]
  simp only [x, y, entered_run r value, entered_run r value']
  obtain ⟨ρ', step, same, valid⟩ := child_inStep (r := r) closed embeds has segment.name
  generalize (r.child v segment.name).run g = a at step same valid ⊢
  generalize (r.child (v.rename ρ) segment.name).run h = b at step same valid ⊢
  obtain ⟨result, g₁⟩ := a
  obtain ⟨result', h₁⟩ := b
  simp only at same
  subst same
  cases result with
  | error e => exact ⟨ρ', step, rfl, by simp⟩
  | ok child =>
    have has₁ := valid child rfl
    exact ⟨ρ', step, selected_rename step.embeds segment has₁,
      fun values found => selected_has step.closed has₁ found⟩

/-- Following segments keeps in step across an embedding. -/
theorem reached_keepsStep (r : Registry) (segments : List Segment) :
    KeepsStep (r.reached · segments) := by
  induction segments with
  | nil =>
    intro ρ g h v closed embeds has
    exact ⟨ρ, .refl closed embeds, rfl, by simpa [reached] using has⟩
  | cons segment rest ih =>
    intro ρ g h v closed embeds has
    obtain ⟨ρ₁, step, same, valid⟩ := entered_inStep (r := r) closed embeds has segment
    simp only [reached_cons]
    generalize r.entered v segment g = a at step same valid ⊢
    generalize r.entered (v.rename ρ) segment h = b at step same valid ⊢
    obtain ⟨found, g₁⟩ := a
    obtain ⟨found', h₁⟩ := b
    simp only at same
    subst same
    cases found with
    | none => exact ⟨ρ₁, step, rfl, by simp [Graph.Has]⟩
    | some values =>
      obtain ⟨ρ₂, others, sameAll, validAll⟩ :=
        joinM_inStep ih step.closed step.embeds (valid values rfl)
      exact ⟨ρ₂, step.trans others, sameAll, validAll⟩

/-! ## Cutting a path -/

/-- Following segments in two parts shows the same as following them at once. -/
theorem watch_reached_append (r : Registry) {β : Type} {look : Graph → Value → List β}
    (steady : Observation look) (front behind : List Segment) {g : Graph} (closed : g.Closed)
    {v : Value} (has : g.Has v) :
    watch look (r.reached v (front ++ behind) g) =
      watch (fun g w => watch look (r.reached w behind g)) (r.reached v front g) := by
  induction front generalizing v g with
  | nil => simp [watch, reached]
  | cons segment rest ih =>
    obtain ⟨ρ₁, step, -, valid⟩ :=
      entered_inStep (r := r) closed (Graph.Extends.refl g).embeds has segment
    simp only [List.cons_append, reached_cons]
    generalize r.entered v segment g = a at step valid ⊢
    obtain ⟨_ | values, g₁⟩ := a
    · simp [watch, reached_null]
    · have later := steady.watch_observation (r.reached_keepsStep behind)
      have values_valid := valid values rfl
      simp only [watch_joinM (r.reached_keepsStep _) steady step.closed values_valid,
        watch_joinM (r.reached_keepsStep _) later step.closed values_valid]
      exact List.flatMap_congr fun w hw => ih step.closed (values_valid w hw)

/-! ## Reads -/

/-- The values at a path from one value; from null there is only null. -/
def readOn (r : Registry) (template : Field) (v : Value) : Step (List Value) := do
  if v.isNull then return [.null]
  let (found, _) ← r.read template v
  return found.values

/-- The values at a path from each of some values in turn. -/
def readEach (r : Registry) (template : Field) : List Value → Step (List Value)
  | [] => return []
  | v :: rest => do
    let first ← r.readOn template v
    let others ← r.readEach template rest
    return first ++ others

theorem readOn_run (r : Registry) (template : Field) (v : Value) (g : Graph) :
    (r.readOn template v).run g =
      (.ok (r.reached v template.path.followed g).1, (r.reached v template.path.followed g).2) := by
  unfold readOn
  by_cases value : v = .null
  · simp only [value, Value.isNull, if_true, Running.run_pure, reached_null]
  · obtain ⟨e, audits, run, same⟩ := r.read_values template value g
    have notNull : v.isNull = false := Value.isNull_eq_false_iff.2 value
    simp only [notNull, Bool.false_eq_true, if_false, Running.run_bind, Running.run_pure, run, same]

theorem readEach_run (r : Registry) (template : Field) (values : List Value) (g : Graph) :
    (r.readEach template values).run g =
      (.ok (joinM (r.reached · template.path.followed) values g).1,
        (joinM (r.reached · template.path.followed) values g).2) := by
  induction values generalizing g with
  | nil => rfl
  | cons v rest ih =>
    simp only [readEach, joinM_cons, Running.run_bind, readOn_run, ih, Running.run_pure]

/-- Two lists of values have the same contents, one by one. -/
def SameContents (g : Graph) (vs : List Value) (h : Graph) (ws : List Value) : Prop :=
  ∀ depth, vs.map (g.contentWithin depth) = ws.map (h.contentWithin depth)

end Registry

theorem Path.followed_upTo_append (p : Path) (i : Nat) :
    (p.upTo i).followed ++ (p.relativeTo i).followed = p.followed := by
  have relative : (p.relativeTo i).followed = p.tail.drop i := rfl
  rw [relative, followed, followed]
  show (if p.head.isCollection then (p.upTo i).segments else p.tail.take i) ++ _ = _
  split
  · rw [segments_upTo, segments, List.take_succ_cons, List.cons_append, List.take_append_drop]
  · exact List.take_append_drop i p.tail

namespace Registry

/-- Reads compose.  Reading a path from a value that is not null shows what reading the path up to a position
shows, with null left as it is and every other value replaced by what the rest of the path reads from it.
None of the reads fails. -/
theorem read_upTo_relativeTo (r : Registry) (template : Field) (i : Nat) {g : Graph}
    {source : Value} (closed : g.Closed) (has : g.Has source) (value : source ≠ .null) :
    ∃ whole front behind g₁ g₂ g₃,
      (r.read template source).run g = (.ok whole, g₁) ∧
      (r.read { template with path := template.path.upTo i } source).run g = (.ok front, g₂) ∧
      (r.readEach { template with path := template.path.relativeTo i } front.1.values).run g₂ =
        (.ok behind, g₃) ∧
      SameContents g₁ whole.1.values g₃ behind := by
  obtain ⟨whole, audits, run, same⟩ := r.read_values template value g
  obtain ⟨front, audits', run', same'⟩ :=
    r.read_values { template with path := template.path.upTo i } value g
  refine ⟨_, _, _, _, _, _, run, run', readEach_run r _ _ _, fun depth => ?_⟩
  have steady := content_observation depth
  have keeps := r.reached_keepsStep (template.path.relativeTo i).followed
  obtain ⟨_, step, -, valid⟩ := r.reached_keepsStep (template.path.upTo i).followed .same g g source
    closed (Graph.Extends.refl g).embeds has
  have cut := r.watch_reached_append steady (template.path.upTo i).followed
    (template.path.relativeTo i).followed closed has
  have rest := watch_joinM keeps steady step.closed valid
  rw [Path.followed_upTo_append] at cut
  simp only [watch, ← List.map_eq_flatMap] at cut rest
  rw [same, same', cut, rest]

/-- The list of a document with one row and one gap, read through a wildcard and cut behind it. -/
theorem read_upTo_relativeTo_rows :
    let rows : Tree := .sequence .list .any [.map .any [("n", .scalar (.string "x"))], .null]
    let document := Graph.empty.plant (.map .any [("rows", rows)])
    let template : Field := { path := ⟨.root, [⟨"rows", .element .list none, false⟩, .field "n"]⟩ }
    (document.2.Closed ∧ document.2.Has document.1 ∧ document.1 ≠ .null) ∧
      ∃ whole front behind g₁ g₂ g₃,
        (empty.read template document.1).run document.2 = (.ok whole, g₁) ∧
        (empty.read { template with path := template.path.upTo 1 } document.1).run document.2 =
          (.ok front, g₂) ∧
        (empty.readEach { template with path := template.path.relativeTo 1 }
          front.1.values).run g₂ = (.ok behind, g₃) ∧
        SameContents g₁ whole.1.values g₃ behind := by
  intro rows document template
  have closed : document.2.Closed := by decide
  have has : document.2.Has document.1 := by decide
  have value : document.1 ≠ .null := by decide
  exact ⟨⟨closed, has, value⟩, read_upTo_relativeTo empty template 1 closed has value⟩

end Registry

end FieldBinding
