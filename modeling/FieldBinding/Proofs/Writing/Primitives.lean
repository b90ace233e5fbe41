import FieldBinding.Binder
import FieldBinding.Proofs.Writing.Storing

/-!
# Primitive members stay primitive

A member that is declared for a primitive holds a zero in a new object, and it is never null afterwards: nothing is
laid where something is, and a null is not stored there.

It need not hold a primitive of that kind for ever.  A field may have a type of its own, and its value is then
converted to that type and stored whatever the member is declared for.  Where no field has one, a value is aimed at the
declared type of the member when it is queued, and lands there.

Main results:

* `Graph.Edits.keeps_primitives` — what keeps the primitive in each slot that it puts a value into keeps those of all
  objects.
* `Writer.Call.upholds` — every call keeps them.
* `Binder.Run.primitives` — so does a run of a writer.
-/

namespace FieldBinding

open FieldBinding.Graph

/-- What a member that is declared for a primitive holds: not null, and under `strict` a scalar of the kind. -/
def Value.Serves (strict : Prop) (kind : PrimitiveKind) (u : Value) : Prop :=
  u ≠ .null ∧ (strict → ∃ s, u = .scalar s ∧ s.kind = .primitive kind)

namespace Registry

variable (r : Registry) (strict : Prop)

/-- An object is of a registered type, and its members that are declared for primitives hold such. -/
def HoldsPrimitives (g : Graph) (id : NodeId) : Prop :=
  ∃ d, r.get? (g.object id).typeName = some d ∧
    ∀ m ∈ d.members, ∀ kind, m.declared = .primitive kind → Value.Serves strict kind (rawMember (g.object id) m.name)

/-- A value may be put into a slot: if it is that of a primitive member, the value serves where the old one did. -/
def KeepsPrimitive (g : Graph) (x : Value) (label : String) (u : Value) : Prop :=
  ∀ kind, x.isObject → r.slotType (g.node x).kind label = .primitive kind →
    Value.Serves strict kind ((g.slot? x label).getD .null) → Value.Serves strict kind u

end Registry

variable {r : Registry} {strict : Prop} {zone : Zone} {g g' : Graph}

/-! ## Edits -/

namespace Graph

/-- What holds of an object only depends on its node. -/
theorem holdsPrimitives_congr {id : NodeId} (same : g'.object id = g.object id) :
    r.HoldsPrimitives strict g' id ↔ r.HoldsPrimitives strict g id := by
  unfold Registry.HoldsPrimitives
  rw [same]

section Standalone

variable (alone : r.Standalone)

include alone

/-- A new object holds zeros in its primitive members. -/
theorem holdsPrimitives_defaultObject {id : NodeId} {d : Descriptor} (known : r.get? d.name = some d)
    (made : g.object id = d.defaultObject) : r.HoldsPrimitives strict g id := by
  refine ⟨d, by rw [made]; exact known, fun m hm kind primitive => ?_⟩
  rw [made, (alone.bean.types d.name d known).rawMember_defaultObject hm, primitive]
  exact ⟨by simp [Descriptor.initial], fun _ => ⟨_, rfl, Scalar.kind_zero kind⟩⟩

/-- An object still holds its primitives when a value that may be put there is put into one of its slots. -/
theorem holdsPrimitives_put {id : NodeId} {label : String} {u : Value} (held : r.HoldsPrimitives strict g id)
    (puts : r.KeepsPrimitive strict g (.object id) label u) (put : g.Rewrites g' (.object id) (onlyAt label u)) :
    r.HoldsPrimitives strict g' id := by
  obtain ⟨d, known, holds⟩ := held
  have typeName : (g'.object id).typeName = (g.object id).typeName := NodeKind.object.inj put.kind
  refine ⟨d, typeName ▸ known, fun m hm kind primitive => ?_⟩
  have old := holds m hm kind primitive
  have slot : Registry.rawMember (g'.object id) m.name =
      ((onlyAt label u m.name).or (g.slot? (.object id) m.name)).getD .null :=
    congrArg (·.getD .null) (put.slot m.name)
  rw [slot, onlyAt]
  split
  · next same =>
    have type : r.slotType (g.node (.object id)).kind label = .primitive kind :=
      (same ▸ Registry.slotType_member alone known hm).trans primitive
    exact puts kind rfl type (same ▸ old)
  · exact old

/-- An edit makes objects that hold their primitives, and the others still do. -/
theorem Edit.keeps_primitives (edit : Edit r (r.KeepsPrimitive strict) g g') {foreign : NodeId → Prop}
    (before : ∀ id, g.Has (.object id) → ¬foreign id → r.HoldsPrimitives strict g id) :
    ∀ id, g'.Has (.object id) → ¬foreign id → r.HoldsPrimitives strict g' id := by
  intro id has' own
  cases edit with
  | add adds blank =>
    rcases (adds.has _).1 has' with has | new
    · exact (holdsPrimitives_congr (Node.object.inj (adds.kept _ has))).2 (before id has own)
    have node := (g'.node_congr new).trans adds.node
    cases blank with
    | sequence element => cases node
    | map element => cases node
    | longer has index => cases node
    | object known => exact holdsPrimitives_defaultObject alone known (Node.object.inj node)
  | @pad x has collection pads =>
    have other : (Value.object id).address? ≠ x.address? := by cases x <;> simp_all [Value.address?, Value.isCollection]
    exact (holdsPrimitives_congr (Node.object.inj (pads.kept _ other))).2 (before id ((pads.has _).1 has') own)
  | @put x u label has there puts put =>
    have held := before id ((put.has _).1 has') own
    by_cases here : (Value.object id).address? = x.address?
    · obtain rfl : x = .object id := by cases x <;> simp_all [Value.address?]
      exact holdsPrimitives_put alone held puts put
    · exact (holdsPrimitives_congr (Node.object.inj (put.kept _ here))).2 held

/-- So do edits one after another. -/
theorem Edits.keeps_primitives (edits : Edits r (r.KeepsPrimitive strict) g g') {foreign : NodeId → Prop}
    (before : ∀ id, g.Has (.object id) → ¬foreign id → r.HoldsPrimitives strict g id) :
    ∀ id, g'.Has (.object id) → ¬foreign id → r.HoldsPrimitives strict g' id := by
  induction edits with
  | refl => exact before
  | tail _ edit ih => exact edit.keeps_primitives alone ih

end Standalone

end Graph

/-! ## Calls -/

namespace Writer

/-- Nothing is laid where a primitive is. -/
theorem Lays.keepsPrimitive {stray : Prop} {x u : Value} {label : String} (lays : Lays r stray g x label u) :
    r.KeepsPrimitive strict g x label u := by
  intro kind _ _ serves
  cases lays with
  | filled missing => exact absurd missing serves.1
  | strayed missing => exact absurd missing serves.1
  | @lengthened old held array long type =>
    rw [held, Option.getD_some] at serves
    refine ⟨fun null => ?_, fun only => ?_⟩
    · rw [null] at long
      cases long
    · obtain ⟨s, rfl, -⟩ := serves.2 only
      cases array

/-- A queued value that is valid, has been converted, and is aimed at the type of its place if nothing else is
allowed. -/
structure Sound (r : Registry) (strict : Prop) (zone : Zone) (g : Graph) (e : PendingWrite) : Prop where
  valid : e.Valid g
  settled : e.Settled zone
  aimed : strict → e.Aimed r g

theorem Sound.of_kind {e : PendingWrite} (sound : Sound r strict zone g e)
    (kept : ∀ v, g.Has v → g'.Has v ∧ (g'.node v).kind = (g.node v).kind) : Sound r strict zone g' e where
  valid := sound.valid.of_has fun v has => (kept v has).1
  settled := sound.settled
  aimed only := (sound.aimed only).of_kind sound.valid fun v has => (kept v has).2

/-- A queued value keeps the primitive in the slot that it is put into. -/
theorem Deposits.keepsPrimitive {start : Graph} {e : PendingWrite} (sound : Sound r strict zone start e) {x u : Value}
    {label : String} (deposits : Deposits r start e e.field.value g x label u) :
    r.KeepsPrimitive strict g x label u := by
  cases deposits with
  | laid lays => exact lays.keepsPrimitive
  | element collection value =>
    intro kind object
    cases x with
    | object id => cases collection
    | _ => cases object
  | child first owned plain stands value nullable =>
    subst first value
    intro kind object type _
    have not_null : e.field.value ≠ .null := fun null => by
      have nullable := nullable null object
      rw [type] at nullable
      cases nullable
    refine ⟨not_null, fun only => ?_⟩
    obtain ⟨hint, target⟩ := sound.aimed only x owned plain
    have aim : e.target = some (.primitive kind) := by
      have known := (stands.type hint).trans type
      rw [← target] at known
      cases found : e.target with
      | none => rw [found] at known; cases known
      | some tag => rw [found] at known; exact congrArg some known
    exact (sound.settled.lands aim rfl).resolve_left not_null

/-- A document whose own objects hold their primitives, and whose queue is sound. -/
structure Upholds (r : Registry) (strict : Prop) (zone : Zone) (foreign : NodeId → Prop) (w : Writer) :
    Prop where
  closed : w.graph.Closed
  has : w.graph.Has w.root
  queue : ∀ e ∈ w.pending, Sound r strict zone w.graph e
  objects : ∀ id, w.graph.Has (.object id) → ¬foreign id → r.HoldsPrimitives strict w.graph id

/-- A step on the way of a call: the graph is edited, and the primitives are upheld. -/
structure Advances (r : Registry) (strict : Prop) (zone : Zone) (foreign : NodeId → Prop) (w w' : Writer) :
    Prop where
  edits : Edits r (r.KeepsPrimitive strict) w.graph w'.graph
  upholds : Upholds r strict zone foreign w'

variable {foreign : NodeId → Prop} {w w' : Writer}

theorem Sound.edited {Puts : Graph → Value → String → Value → Prop} {e : PendingWrite} (sound : Sound r strict zone g e)
    (edits : Edits r Puts g g') : Sound r strict zone g' e :=
  sound.of_kind fun _ has => ⟨edits.has has, edits.kind_eq has⟩

section Standalone

variable (alone : r.Standalone)

include alone

theorem Upholds.advance (upholds : Upholds r strict zone foreign w)
    (edits : Edits r (r.KeepsPrimitive strict) w.graph w'.graph) (has : w'.graph.Has w'.root)
    (queue : ∀ e ∈ w'.pending, Sound r strict zone w'.graph e) : Advances r strict zone foreign w w' where
  edits
  upholds := ⟨edits.closed upholds.closed, has, queue, edits.keeps_primitives alone upholds.objects⟩

/-- A field that is written upholds the primitives, whatever becomes of it. -/
theorem write_advances (upholds : Upholds r strict zone foreign w) {field : Field} (has : w.graph.Has field.value)
    (untyped : strict → field.type = none) :
    Advances r strict zone foreign w ((write r zone field).run w).2 := by
  simp only [write, Running.run_bind]
  have idle := prepare_idle r field.path w
  generalize prepared : (prepare r field.path).run w = answer at idle ⊢
  obtain ⟨answer, w₁⟩ := answer
  obtain ⟨lays, there⟩ := prepare_edits alone upholds.closed upholds.has (fun _ => trivial) prepared
  have edits : Edits r (r.KeepsPrimitive strict) w.graph w₁.graph := lays.mono fun _ _ _ _ => Lays.keepsPrimitive
  have root := (prepare_enriches alone.bean upholds.closed upholds.has prepared).has
  have queue : ∀ e ∈ w₁.pending, Sound r strict zone w₁.graph e :=
    fun e he => (upholds.queue e (idle.pending ▸ he)).edited edits
  cases answer with
  | error e => exact upholds.advance alone edits root queue
  | ok owner =>
    simp only
    generalize populated : (populate r zone field owner).run w₁ = answer
    obtain ⟨e | u, w₂⟩ := answer
    · obtain ⟨graph, same, pending, -⟩ := populate_outcome populated
      rw [targetOf_graph alone.bean] at graph
      refine upholds.advance alone (graph ▸ edits) (graph ▸ same ▸ root) ?_
      rw [graph, pending]
      exact queue
    · obtain ⟨graph, same, e, pending, valid, settled, aimed⟩ :=
        populate_aimed alone.bean (edits.has has) (fun v owned => (there v (owned ▸ rfl)).1) populated
      refine upholds.advance alone (graph ▸ edits) (graph ▸ same ▸ root) ?_
      rw [graph, pending, List.forall_mem_append, List.forall_mem_singleton]
      exact ⟨queue, valid, settled, fun only => aimed (untyped only)⟩

/-- A queued value that is stored upholds them as well. -/
theorem apply_advances (upholds : Upholds r strict zone foreign w) {e : PendingWrite}
    (sound : Sound r strict zone w.graph e) :
    Advances r strict zone foreign w ((apply r e e.field.value).run w).2 := by
  obtain ⟨deposits, has⟩ := apply_edits alone upholds.closed upholds.has sound.valid sound.valid.value rfl
  have edits : Edits r (r.KeepsPrimitive strict) w.graph ((apply r e e.field.value).run w).2.graph :=
    deposits.mono fun _ _ _ _ => Deposits.keepsPrimitive sound
  refine upholds.advance alone edits has ?_
  rw [(apply_idle r e e.field.value w).pending]
  exact fun d hd => (upholds.queue d hd).edited edits

end Standalone

/-- What upholds the primitives for each of many does so for all of them. -/
theorem eachNoted_upholds {α : Type} {field : α → Field} {act : α → Writing Unit} (Fit : Graph → α → Prop)
    (kept : ∀ a g g', Edits r (r.KeepsPrimitive strict) g g' → Fit g a → Fit g' a)
    (step : ∀ a w, Upholds r strict zone foreign w → Fit w.graph a → Advances r strict zone foreign w ((act a).run w).2)
    {as : List α} (upholds : Upholds r strict zone foreign w) (fit : ∀ a ∈ as, Fit w.graph a) :
    Upholds r strict zone foreign (eachNoted field act as w).2 := by
  induction as generalizing w with
  | nil => exact upholds
  | cons a rest ih =>
    rw [eachNoted_cons]
    have advances := step a w upholds (fit a List.mem_cons_self)
    have later : ∀ b ∈ rest, Fit ((act a).run w).2.graph b :=
      fun b hb => kept b _ _ advances.edits (fit b (List.mem_cons_of_mem a hb))
    generalize (act a).run w = answered at advances later
    obtain ⟨e | u, w₁⟩ := answered
    · exact ih ⟨advances.upholds.closed, advances.upholds.has, advances.upholds.queue, advances.upholds.objects⟩ later
    · exact ih advances.upholds later

/-- Every call upholds the primitives. -/
theorem Call.upholds (alone : r.Standalone) (upholds : Upholds r strict zone foreign w) (call : Call)
    (has : ∀ f ∈ call.fields, w.graph.Has f.value) (untyped : strict → ∀ f ∈ call.fields, f.type = none) :
    Upholds r strict zone foreign (call.run r zone w) := by
  cases call with
  | write field =>
    exact (write_advances alone upholds (has field (List.mem_singleton.2 rfl))
      fun only => untyped only field (List.mem_singleton.2 rfl)).upholds
  | writeGroup group =>
    rw [Call.run, writeGroup_run]
    exact eachNoted_upholds (fun (g : Graph) (f : Field) => g.Has f.value ∧ (strict → f.type = none))
      (fun f g g' edits fit => ⟨edits.has fit.1, fit.2⟩)
      (fun f w upholds fit => write_advances alone upholds fit.1 fit.2)
      upholds fun f hf => ⟨has f hf, fun only => untyped only f hf⟩
  | commit =>
    rw [Call.run, commit_run fun e he => (upholds.queue e he).settled]
    exact eachNoted_upholds (Sound r strict zone) (fun e g g' edits sound => sound.edited edits)
      (fun e w upholds sound => apply_advances alone upholds sound)
      ⟨upholds.closed, upholds.has, fun e he => (List.not_mem_nil he).elim, upholds.objects⟩ upholds.queue

end Writer

/-! ## Runs -/

namespace Binder

open FieldBinding.Writer

/-- A run of a writer for a type: calls one after another, between which somebody else may make nodes for the values
of fields.  The objects that exist and are not `foreign` are those that the run has made. -/
inductive Run (b : Binder) (typeName : String) : List Call → (NodeId → Prop) → Writer → Prop where
  | start {g : Graph} {w : Writer} (closed : g.Closed) (opened : b.writerFor g typeName = .ok w) :
      Run b typeName [] (fun id => g.Has (.object id)) w
  | call {calls : List Call} {foreign : NodeId → Prop} {w : Writer} (run : Run b typeName calls foreign w) (call : Call)
      (has : ∀ f ∈ call.fields, w.graph.Has f.value) :
      Run b typeName (calls ++ [call]) foreign (call.run b.registry b.config.timezone w)
  | extended {calls : List Call} {foreign : NodeId → Prop} {w : Writer} {g : Graph}
      (run : Run b typeName calls foreign w) (more : w.graph.Extends g) (closed : g.Closed) :
      Run b typeName calls (fun id => foreign id ∨ ¬w.graph.Has (.object id)) { w with graph := g }

variable {b : Binder} {typeName : String} {calls : List Call} {foreign : NodeId → Prop} {w : Writer}

/-- A run upholds the primitives. -/
theorem Run.upholds (alone : b.registry.Standalone) (run : Run b typeName calls foreign w)
    (untyped : strict → ∀ call ∈ calls, ∀ f ∈ call.fields, f.type = none) :
    Upholds b.registry strict b.config.timezone foreign w := by
  induction run with
  | @start g w closed opened =>
    unfold writerFor at opened
    cases made : b.registry.instantiate g (.complex typeName) with
    | error e =>
      rw [made] at opened
      cases opened
    | ok document =>
      obtain ⟨root, graph⟩ := document
      rw [made] at opened
      cases opened
      have added := (instantiate_addsBlank alone (.inr rfl) made).1
      have edit : Edit b.registry (b.registry.KeepsPrimitive strict) g graph := added.edit
      exact ⟨edit.closed closed, added.has, fun e he => (List.not_mem_nil he).elim,
        edit.keeps_primitives alone fun id has own => absurd has own⟩
  | call run call has ih =>
    have before := ih fun only c hc => untyped only c (List.mem_append_left _ hc)
    exact call.upholds alone before has fun only => untyped only call (by simp)
  | extended run more closed ih =>
    have before := ih untyped
    refine ⟨closed, more.has before.has, fun e he => ?_, fun id has own => ?_⟩
    · exact (before.queue e he).of_kind fun v has => ⟨more.has has, congrArg Node.kind (more.node_eq has)⟩
    · obtain ⟨own, there⟩ := not_or.1 own
      have has := not_not.1 there
      exact (holdsPrimitives_congr (Node.object.inj (more.node_eq has))).2 (before.objects id has own)

/-- Primitive members stay primitive.  In every object that a run of a writer has made, a member that is declared for a
primitive is not null, whatever fields have been written and whatever has become of them, and if none of them has a
type of its own it holds a scalar of the kind that it is declared for. -/
theorem Run.primitives (alone : b.registry.Standalone) (run : Run b typeName calls foreign w) {id : NodeId}
    (has : w.graph.Has (.object id)) (own : ¬foreign id) :
    ∃ d, b.registry.get? (w.graph.object id).typeName = some d ∧
      ∀ m ∈ d.members, ∀ kind, m.declared = .primitive kind →
        Registry.rawMember (w.graph.object id) m.name ≠ .null ∧
          ((∀ call ∈ calls, ∀ f ∈ call.fields, f.type = none) →
            ∃ s, Registry.rawMember (w.graph.object id) m.name = .scalar s ∧ s.kind = .primitive kind) :=
  (run.upholds alone fun untyped => untyped).objects id has own

/-- A truth value and a null are written to a count. -/
theorem Run.primitives_count :
    let row := (Descriptor.ofName "Row").addField "count" (.primitive (.integer .int))
    let b : Binder := { registry := .ofList [row] }
    let opened : Writer := { graph := (Graph.empty.newObject row.defaultObject).2, root := .object 0 }
    let field (v : Value) : Field := { path := ⟨.root, [.field "count"]⟩, value := v }
    let group : FieldGroup :=
      { path := ⟨.root, [.field "count"]⟩, fields := [field (.scalar (.bool true)), field .null] }
    let w := Call.commit.run b.registry .utc ((Call.writeGroup group).run b.registry .utc opened)
    let foreign : NodeId → Prop := fun id => Graph.empty.Has (.object id)
    (b.registry.Standalone ∧ Run b "Row" [.writeGroup group, .commit] foreign w ∧ w.graph.Has (.object 0) ∧
      ¬foreign 0 ∧ ∀ call ∈ [Call.writeGroup group, .commit], ∀ f ∈ call.fields, f.type = none) ∧
      Registry.rawMember (w.graph.object 0) "count" ≠ .null ∧
      ∃ s, Registry.rawMember (w.graph.object 0) "count" = .scalar s ∧ s.kind = .primitive (.integer .int) := by
  intro row b opened field group w foreign
  have alone : b.registry.Standalone := Registry.single_field_standalone "Row" "count" _
  have started : Run b "Row" [] foreign opened := .start (by decide) rfl
  have run : Run b "Row" [.writeGroup group, .commit] foreign w :=
    (started.call (.writeGroup group) (by simp [Call.fields, group, field, Has])).call .commit (by simp [Call.fields])
  have has : w.graph.Has (.object 0) := by
    dsimp only [w]
    cbv
  have own : ¬foreign 0 := by decide
  have untyped : ∀ call ∈ [Call.writeGroup group, .commit], ∀ f ∈ call.fields, f.type = none := by
    simp [Call.fields, group, field]
  obtain ⟨d, known, holds⟩ := run.primitives alone has own
  obtain rfl := Registry.eq_of_get?_single known
  obtain ⟨value, kinded⟩ := holds ⟨"count", _⟩ (List.mem_singleton.2 rfl) _ rfl
  exact ⟨⟨alone, run, has, own, untyped⟩, value, kinded untyped⟩

end Binder

end FieldBinding
