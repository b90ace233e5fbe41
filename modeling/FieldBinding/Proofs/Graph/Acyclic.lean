import FieldBinding.Proofs.Graph.Slots
import Mathlib.Logic.Relation

/-!
# Graphs without cycles

Nothing keeps a host from building a graph that leads back to where it started, and in such a graph a value
that is stored at the end of a path may sit on the way to itself.  `Graph.Acyclic` excludes this below a value:
every way down from it ends.

Main results:

* `Graph.Acyclic.address_ne` — a node is not met again below itself.
* `Graph.Acyclic.grown`, `Graph.Acyclic.rewrites` — what is acyclic stays acyclic when nodes are added, and when
  slots get acyclic values.
* `Graph.plant_made` — a planted content is made of new nodes, without cycles.
-/

namespace FieldBinding.Graph

/-- Whether every way down from a value ends. -/
def Acyclic (g : Graph) (v : Value) : Prop :=
  Acc (fun c parent => c ∈ g.children parent) v

/-- Whether one value is found from another on the way down. -/
def Reaches (g : Graph) : Value → Value → Prop :=
  Relation.ReflTransGen fun parent c => c ∈ g.children parent

/-- Whether one value is found strictly below another. -/
def Below (g : Graph) : Value → Value → Prop :=
  Relation.TransGen fun parent c => c ∈ g.children parent

variable {g g' : Graph}

theorem children_eq_of_node_eq {v w : Value} (h : g'.node w = g.node v) :
    ∀ c, c ∈ g'.children w ↔ c ∈ g.children v := by
  intro c
  simp only [mem_children_iff, slot?, h]

theorem Reaches.has {v w : Value} (closed : g.Closed) (has : g.Has v) (h : g.Reaches v w) :
    g.Has w := by
  induction h with
  | refl => exact has
  | tail _ child ih => exact closed _ _ ih child

namespace Acyclic

theorem of_reaches {v w : Value} (acyclic : g.Acyclic v) (h : g.Reaches v w) : g.Acyclic w := by
  induction h with
  | refl => exact acyclic
  | tail _ child ih => exact ih.inv child

/-- A node is not met again below itself. -/
theorem address_ne {v w : Value} (acyclic : g.Acyclic v) (below : g.Below v w) :
    w.address? ≠ v.address? := by
  induction acyclic generalizing w with
  | intro v _ ih =>
    intro same
    obtain ⟨c, child, rest⟩ := Relation.TransGen.head'_iff.1 below
    -- the first step from `v` is a step from `w` as well, so the way goes round once more from `c`
    have again : c ∈ g.children w := (children_eq_of_node_eq (g.node_congr same) c).2 child
    exact ih c child (.tail' rest again) rfl

/-- Added nodes do not matter. -/
theorem grown {v : Value} (more : g.Extends g') (closed : g.Closed) (has : g.Has v)
    (acyclic : g.Acyclic v) : g'.Acyclic v := by
  induction acyclic with
  | intro v _ ih =>
    refine .intro v fun c hc => ?_
    rw [children_eq_of_node_eq (more.node_eq has)] at hc
    exact ih c hc (closed v c has hc)

/-- A rewritten node that is not found below a value does not matter to it. -/
theorem rewrites_apart {v x : Value} {values : String → Option Value}
    (change : g.Rewrites g' x values) (acyclic : g.Acyclic v)
    (apart : ∀ w, g.Reaches v w → w.address? ≠ x.address?) : g'.Acyclic v := by
  induction acyclic with
  | intro v _ ih =>
    refine .intro v fun c hc => ?_
    rw [children_eq_of_node_eq (change.kept v (apart v .refl))] at hc
    exact ih c hc fun w hw => apart w (.head hc hw)

/-- What is acyclic stays so when slots get acyclic values. -/
theorem rewrites {v x : Value} {values : String → Option Value}
    (change : g.Rewrites g' x values)
    (stored : ∀ label c, values label = some c → g'.Acyclic c) (acyclic : g.Acyclic v) :
    g'.Acyclic v := by
  induction acyclic with
  | intro v _ ih =>
    refine .intro v fun c hc => ?_
    by_cases here : v.address? = x.address?
    · have hc' : c ∈ g'.children x :=
        (children_eq_of_node_eq (g'.node_congr here) c).1 hc
      obtain ⟨label, hlabel⟩ := (g'.mem_children_iff x c).1 hc'
      rw [change.slot] at hlabel
      cases new : values label with
      | some w =>
        rw [new, Option.some_or, Option.some.injEq] at hlabel
        exact hlabel ▸ stored label w new
      | none =>
        rw [new, Option.none_or] at hlabel
        refine ih c ?_
        rw [children_eq_of_node_eq (g.node_congr here)]
        exact (g.mem_children_iff x c).2 ⟨label, hlabel⟩
    · rw [children_eq_of_node_eq (change.kept v here)] at hc
      exact ih c hc

/-- What is acyclic stays so when no node gets a new child but null. -/
theorem of_fewer {v : Value} (fewer : ∀ v c, c ∈ g'.children v → c = .null ∨ c ∈ g.children v)
    (acyclic : g.Acyclic v) : g'.Acyclic v := by
  induction acyclic with
  | intro v _ ih =>
    refine .intro v fun c hc => ?_
    rcases fewer v c hc with rfl | old
    · exact .intro _ fun c hc => by simp [children] at hc
    · exact ih c old

theorem of_children {v : Value} (h : ∀ c ∈ g.children v, g.Acyclic c) : g.Acyclic v :=
  .intro v h

theorem null (g : Graph) : g.Acyclic .null :=
  of_children fun c hc => by simp [children] at hc

theorem scalar (g : Graph) (s : Scalar) : g.Acyclic (.scalar s) :=
  of_children fun c hc => by simp [children] at hc

end Acyclic

/-! ## New values -/

theorem Reaches.of_extends (more : g.Extends g') (closed : g.Closed) {v w : Value} (has : g.Has v)
    (h : g'.Reaches v w) : g.Reaches v w := by
  induction h with
  | refl => exact .refl
  | tail _ child ih =>
    rw [children_eq_of_node_eq (more.node_eq (ih.has closed has))] at child
    exact .tail ih child

/-- A value that has been made since some earlier graph: no node of it was there before, and no way down from
it goes on for ever. -/
structure MadeSince (g g' : Graph) (v : Value) : Prop where
  has : g'.Has v
  fresh : ∀ w, g'.Reaches v w → g.Has w → w.address? = none
  acyclic : g'.Acyclic v

namespace MadeSince

theorem null (g g' : Graph) : MadeSince g g' .null where
  has := trivial
  fresh w h _ := by
    rcases Relation.ReflTransGen.cases_head h with rfl | ⟨c, hc, _⟩
    · rfl
    · simp [children] at hc
  acyclic := .null g'

theorem scalar (g g' : Graph) (s : Scalar) : MadeSince g g' (.scalar s) where
  has := trivial
  fresh w h _ := by
    rcases Relation.ReflTransGen.cases_head h with rfl | ⟨c, hc, _⟩
    · rfl
    · simp [children] at hc
  acyclic := .scalar g' s

/-- What has been made is not changed by making more. -/
theorem grown {g'' : Graph} {v : Value} (made : MadeSince g g' v) (closed : g'.Closed)
    (more : g'.Extends g'') : MadeSince g g'' v where
  has := more.has made.has
  fresh w h := made.fresh w (.of_extends more closed made.has h)
  acyclic := made.acyclic.grown more closed made.has

/-- A new node whose children have been made is made itself. -/
theorem of_children {v : Value} (has : g'.Has v) (new : ¬g.Has v)
    (children : ∀ c ∈ g'.children v, MadeSince g g' c) : MadeSince g g' v where
  has := has
  fresh w h old := by
    rcases Relation.ReflTransGen.cases_head h with rfl | ⟨c, hc, rest⟩
    · exact absurd old new
    · exact (children c hc).fresh w rest old
  acyclic := .of_children fun c hc => (children c hc).acyclic

end MadeSince

theorem newSequence_made {kind : SequenceKind} {node : Sequence} (more : g.Extends g')
    (closed : g'.Closed) (items : ∀ c ∈ node.items, MadeSince g g' c) :
    MadeSince g (g'.newSequence kind node).2 (g'.newSequence kind node).1 := by
  refine .of_children (has_newSequence g' kind node) (fun old => ?_) fun c hc => ?_
  · exact Nat.lt_irrefl _ (more.sequences _ old).1
  · simp only [newSequence, children, sequence, Store.get_push_next] at hc
    exact (items c hc).grown closed (newSequence_extends g' kind node)

theorem newMap_made {node : MapNode} (more : g.Extends g') (closed : g'.Closed)
    (entries : ∀ e ∈ node.entries.toList, MadeSince g g' e.2) :
    MadeSince g (g'.newMap node).2 (g'.newMap node).1 := by
  refine .of_children (has_newMap g' node) (fun old => ?_) fun c hc => ?_
  · exact Nat.lt_irrefl _ (more.maps _ old).1
  · simp only [newMap, children, map, Store.get_push_next] at hc
    obtain ⟨e, he, rfl⟩ := List.mem_map.1 hc
    exact (entries e he).grown closed (newMap_extends g' node)

theorem newObject_made {node : Object} (more : g.Extends g') (closed : g'.Closed)
    (members : ∀ e ∈ node.members.toList, MadeSince g g' e.2) :
    MadeSince g (g'.newObject node).2 (g'.newObject node).1 := by
  refine .of_children (has_newObject g' node) (fun old => ?_) fun c hc => ?_
  · exact Nat.lt_irrefl _ (more.objects _ old).1
  · simp only [newObject, children, object, Store.get_push_next] at hc
    obtain ⟨e, he, rfl⟩ := List.mem_map.1 hc
    exact (members e he).grown closed (newObject_extends g' node)

/-- What planting a content yields: added nodes, and a value made of them. -/
def PlantsNew (t : Tree) : Prop :=
  ∀ since g : Graph, since.Extends g → g.Closed →
    g.Extends (g.plant t).2 ∧ (g.plant t).2.Closed ∧ MadeSince since (g.plant t).2 (g.plant t).1

theorem plantAll_made (ts : List Tree) (each : ∀ t ∈ ts, PlantsNew t) {since g : Graph}
    (more : since.Extends g) (closed : g.Closed) :
    g.Extends (g.plantAll ts).2 ∧ (g.plantAll ts).2.Closed ∧
      ∀ c ∈ (g.plantAll ts).1, MadeSince since (g.plantAll ts).2 c := by
  induction ts generalizing g with
  | nil => exact ⟨.refl g, closed, by simp [plantAll]⟩
  | cons t rest ih =>
    obtain ⟨more₁, closed₁, made⟩ := each t List.mem_cons_self since g more closed
    obtain ⟨more₂, closed₂, others⟩ :=
      ih (fun t ht => each t (List.mem_cons_of_mem _ ht)) (more.trans more₁) closed₁
    refine ⟨more₁.trans more₂, closed₂, fun c hc => ?_⟩
    rcases List.mem_cons.1 hc with rfl | hc
    · exact made.grown closed₁ more₂
    · exact others c hc

theorem plantEntries_made (ts : List (String × Tree)) (each : ∀ e ∈ ts, PlantsNew e.2)
    {since g : Graph} (more : since.Extends g) (closed : g.Closed) :
    g.Extends (g.plantEntries ts).2 ∧ (g.plantEntries ts).2.Closed ∧
      ∀ e ∈ (g.plantEntries ts).1, MadeSince since (g.plantEntries ts).2 e.2 := by
  induction ts generalizing g with
  | nil => exact ⟨.refl g, closed, by simp [plantEntries]⟩
  | cons entry rest ih =>
    obtain ⟨more₁, closed₁, made⟩ := each entry List.mem_cons_self since g more closed
    obtain ⟨more₂, closed₂, others⟩ :=
      ih (fun e he => each e (List.mem_cons_of_mem _ he)) (more.trans more₁) closed₁
    refine ⟨more₁.trans more₂, closed₂, fun e he => ?_⟩
    rcases List.mem_cons.1 he with rfl | he
    · exact made.grown closed₁ more₂
    · exact others e he

/-- Planting only adds nodes, and the planted value is made of them. -/
theorem plant_made (t : Tree) : PlantsNew t := by
  intro since g more closed
  cases t with
  | null => exact ⟨.refl g, closed, .null since g⟩
  | scalar s => exact ⟨.refl g, closed, .scalar since g s⟩
  | sequence kind element items =>
    obtain ⟨more₁, closed₁, made⟩ :=
      plantAll_made items (fun t ht => plant_made t) more closed
    exact ⟨more₁.trans (newSequence_extends _ kind ⟨element, _⟩),
      newSequence_closed closed₁ kind _ fun c hc => (made c hc).has,
      newSequence_made (more.trans more₁) closed₁ made⟩
  | map element entries =>
    obtain ⟨more₁, closed₁, made⟩ :=
      plantEntries_made entries (fun e he => plant_made e.2) more closed
    have held := fun e he => made e (Entries.mem_ofList he)
    exact ⟨more₁.trans (newMap_extends _ ⟨element, _⟩),
      newMap_closed closed₁ fun e he => (held e he).has,
      newMap_made (more.trans more₁) closed₁ held⟩
  | object typeName members =>
    obtain ⟨more₁, closed₁, made⟩ :=
      plantEntries_made members (fun e he => plant_made e.2) more closed
    have held := fun e he => made e (Entries.mem_ofList he)
    exact ⟨more₁.trans (newObject_extends _ ⟨typeName, _⟩),
      newObject_closed closed₁ fun e he => (held e he).has,
      newObject_made (more.trans more₁) closed₁ held⟩
termination_by sizeOf t
decreasing_by
  · have := List.sizeOf_lt_of_mem ht
    simp
    omega
  · have := sizeOf_snd_lt he
    simp
    omega
  · have := sizeOf_snd_lt he
    simp
    omega

end FieldBinding.Graph
