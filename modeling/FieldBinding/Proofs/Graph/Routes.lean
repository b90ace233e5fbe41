import FieldBinding.Proofs.Graph.Change
import Mathlib.Data.Set.Finite.Lattice
import Mathlib.Data.Set.Finite.Range
import Mathlib.Order.Interval.Finset.Nat
import Mathlib.Order.WellFounded

/-!
# Routes

A route is a list of labels.  `Graph.along` follows it from a value, from slot to slot.  In a graph without
sharing the routes from a root are the places of a document: no two of them lead to one node, so a change in place
is seen at one place only.

Main results:

* `Graph.Treelike.acyclic` — without sharing there are no cycles.
* `Graph.Treelike.grafts` — a new node that is put into a slot changes its own place; what it holds of what was
  there before stays where it was.
* `Graph.Treelike.pads` — a sequence that is filled up changes no place, and adds some with null in them.
* `Graph.Grows.trans` — what both have in common can be strung together.
-/

namespace FieldBinding

/-- Whether a value has children under names. -/
def Value.holdsNames : Value → Bool
  | map _ | object _ => true
  | _ => false

theorem Value.address_of_holdsNames {v : Value} (names : v.holdsNames) : v.address? ≠ none := by
  cases v <;> simp_all [holdsNames, address?]

namespace Graph

/-- The value at the end of a route. -/
def along (g : Graph) : Value → List String → Option Value
  | v, [] => some v
  | v, label :: rest => (g.slot? v label).bind fun c => g.along c rest

variable {g g₁ g' : Graph} {root root' : Value}

@[simp]
theorem along_nil (g : Graph) (v : Value) : g.along v [] = some v := rfl

theorem along_cons (g : Graph) (v : Value) (label : String) (rest : List String) :
    g.along v (label :: rest) = (g.slot? v label).bind (g.along · rest) := rfl

theorem along_append (g : Graph) (v : Value) (ρ σ : List String) :
    g.along v (ρ ++ σ) = (g.along v ρ).bind (g.along · σ) := by
  induction ρ generalizing v with
  | nil => rfl
  | cons label rest ih =>
    rw [List.cons_append, along_cons, along_cons]
    cases g.slot? v label with
    | none => rfl
    | some c => exact ih c

theorem along_concat (g : Graph) (v : Value) (ρ : List String) (label : String) :
    g.along v (ρ ++ [label]) = (g.along v ρ).bind (g.slot? · label) := by
  rw [along_append]
  cases g.along v ρ with
  | none => rfl
  | some u =>
    rw [Option.bind_some, Option.bind_some, along_cons]
    cases g.slot? u label <;> rfl

/-- A slot that holds no value leads nowhere, or to null. -/
theorem along_of_missing {v u : Value} {ρ : List String} {label : String} (arrives : g.along v ρ = some u)
    (missing : (g.slot? u label).getD .null = .null) :
    g.along v (ρ ++ [label]) = none ∨ g.along v (ρ ++ [label]) = some .null := by
  rw [along_concat, arrives, Option.bind_some]
  cases found : g.slot? u label with
  | none => exact .inl rfl
  | some c =>
    rw [found, Option.getD_some] at missing
    exact .inr (congrArg some missing)

theorem along_of_along {v u : Value} {ρ : List String} (h : g.along v ρ = some u)
    (σ : List String) : g.along v (ρ ++ σ) = g.along u σ := by
  rw [along_append, h, Option.bind_some]

/-- A route shows the same where the slots on it do. -/
theorem along_congr {v : Value} {σ : List String}
    (same : ∀ α label β u, σ = α ++ label :: β → g.along v α = some u →
      g'.slot? u label = g.slot? u label) : g'.along v σ = g.along v σ := by
  induction σ generalizing v with
  | nil => rfl
  | cons label rest ih =>
    rw [along_cons, along_cons, same [] label rest v rfl rfl]
    cases h : g.slot? v label with
    | none => rfl
    | some c =>
      refine ih fun α other β u eq arrives => same (label :: α) other β u (by rw [eq]; rfl) ?_
      rw [along_cons, h, Option.bind_some, arrives]

theorem Closed.has_of_along (closed : g.Closed) {v w : Value} (has : g.Has v) {σ : List String}
    (h : g.along v σ = some w) : g.Has w := by
  induction σ generalizing v with
  | nil => exact Option.some.inj h ▸ has
  | cons label rest ih =>
    rw [along_cons, Option.bind_eq_some_iff] at h
    obtain ⟨c, slot, rest⟩ := h
    exact ih (closed.has_of_slot? has slot) rest

/-! ## Added nodes -/

/-- One node is added. -/
structure Adds (g g' : Graph) (c : Value) (n : Node) : Prop where
  has : ∀ v, g'.Has v ↔ g.Has v ∨ v.address? = c.address?
  new : ¬g.Has c
  kept : ∀ v, g.Has v → g'.node v = g.node v
  node : g'.node c = n

theorem newSequence_adds (g : Graph) (kind : SequenceKind) (node : Sequence) :
    g.Adds (g.newSequence kind node).2 (g.newSequence kind node).1 (.sequence node) where
  has v := by
    cases v with
    | sequence other id =>
      simp only [newSequence, Has, Value.address?, Store.size_push, Option.some.injEq,
        Address.sequence.injEq]
      exact Nat.lt_succ_iff_lt_or_eq
    | _ => simp [newSequence, Has, Value.address?]
  new := Nat.lt_irrefl _
  kept _ has := (newSequence_extends g kind node).node_eq has
  node := congrArg Node.sequence (Store.get_push_next _ _)

theorem newMap_adds (g : Graph) (node : MapNode) :
    g.Adds (g.newMap node).2 (g.newMap node).1 (.map node) where
  has v := by
    cases v with
    | map id =>
      simp only [newMap, Has, Value.address?, Store.size_push, Option.some.injEq, Address.map.injEq]
      exact Nat.lt_succ_iff_lt_or_eq
    | _ => simp [newMap, Has, Value.address?]
  new := Nat.lt_irrefl _
  kept _ has := (newMap_extends g node).node_eq has
  node := congrArg Node.map (Store.get_push_next _ _)

namespace Adds

variable {c : Value} {n : Node}

theorem address_ne (adds : g.Adds g' c n) {v : Value} (has : g.Has v) : v.address? ≠ c.address? :=
  fun same => adds.new ((has_congr g same).1 has)

theorem closed (adds : g.Adds g' c n) (closed : g.Closed)
    (children : ∀ label d, n.slot? label = some d → g.Has d) : g'.Closed := by
  intro v d has child
  obtain ⟨label, slot⟩ := (g'.mem_children_iff v d).1 child
  rw [adds.has] at has ⊢
  left
  rcases has with has | same
  · rw [slot?, adds.kept v has] at slot
    exact closed.has_of_slot? has slot
  · rw [slot?, g'.node_congr same, adds.node] at slot
    exact children label d slot

end Adds

/-! ## Documents without sharing -/

/-- A document in which no two routes lead to one node. -/
structure Treelike (g : Graph) (root : Value) : Prop where
  closed : g.Closed
  has : g.Has root
  unshared : ∀ ρ σ v w, g.along root ρ = some v → g.along root σ = some w →
    v.address? = w.address? → v.address? ≠ none → ρ = σ

theorem Treelike.null (closed : g.Closed) : g.Treelike .null where
  closed := closed
  has := trivial
  unshared ρ σ v w hv _ _ node := by
    cases ρ with
    | nil =>
      cases hv
      exact absurd rfl node
    | cons label rest => cases hv

theorem Treelike.has_of_along (tree : g.Treelike root) {σ : List String} {v : Value}
    (h : g.along root σ = some v) : g.Has v :=
  tree.closed.has_of_along tree.has h

/-- A graph has no more than finitely many nodes. -/
theorem finite_addresses (g : Graph) : {a | ∃ v, g.Has v ∧ v.address? = a}.Finite := by
  have handles : ∀ (make : NodeId → Address) (size : Nat),
      ((fun id => some (make id)) '' {id | id < size}).Finite :=
    fun make size => (Set.finite_lt_nat size).image _
  refine ((Set.finite_singleton none).union ((handles .sequence g.sequences.size).union
    ((handles .map g.maps.size).union (handles .object g.objects.size)))).subset ?_
  rintro _ ⟨v, has, rfl⟩
  cases v with
  | null => exact .inl rfl
  | scalar s => exact .inl rfl
  | sequence kind id => exact .inr (.inl ⟨id, has, rfl⟩)
  | map id => exact .inr (.inr (.inl ⟨id, has, rfl⟩))
  | object id => exact .inr (.inr (.inr ⟨id, has, rfl⟩))

/-- Without sharing there are no cycles. -/
theorem Treelike.acyclic (tree : g.Treelike root) : g.Acyclic root := by
  by_contra endless
  obtain ⟨f, start, child⟩ := not_acc_iff_exists_descending_chain.1 endless
  -- a way down that goes on for ever gives routes of all lengths, and so infinitely many nodes
  have route : ∀ n, ∃ σ, σ.length = n ∧ g.along root σ = some (f n) := by
    intro n
    induction n with
    | zero => exact ⟨[], rfl, by rw [start, along_nil]⟩
    | succ n ih =>
      obtain ⟨σ, rfl, arrives⟩ := ih
      obtain ⟨label, slot⟩ := (g.mem_children_iff _ _).1 (child σ.length)
      exact ⟨σ ++ [label], by simp, by rw [along_concat, arrives, Option.bind_some, slot]⟩
  have node : ∀ n, (f n).address? ≠ none := by
    intro n leaf
    have below := child n
    cases h : f n <;> simp_all [Value.address?, Graph.children]
  have distinct : Function.Injective fun n => (f n).address? := by
    intro n m same
    obtain ⟨σ, rfl, left⟩ := route n
    obtain ⟨τ, rfl, right⟩ := route m
    rw [tree.unshared σ τ _ _ left right same (node _)]
  refine Set.infinite_range_of_injective distinct (g.finite_addresses.subset ?_)
  rintro _ ⟨n, rfl⟩
  obtain ⟨σ, -, arrives⟩ := route n
  exact ⟨f n, tree.has_of_along arrives, rfl⟩

/-! ## Growth -/

/-- What may become of a place of a document: a missing value is made, and an array becomes a longer one. -/
inductive Grown (g : Graph) : Option Value → Option Value → Prop
  | same (a : Option Value) : Grown g a a
  | filled {a : Option Value} {v : Value} (missing : a = none ∨ a = some .null)
      (new : v = .null ∨ ¬g.Has v) : Grown g a (some v)
  | longer {id id' : NodeId} (new : ¬g.Has (.sequence .array id')) :
      Grown g (some (.sequence .array id)) (some (.sequence .array id'))

/-- Growing twice is growing. -/
theorem Grown.trans {a b c : Option Value} (has : ∀ v, g.Has v → g₁.Has v) (first : Grown g a b)
    (second : Grown g₁ b c) : Grown g a c := by
  have older : ∀ v, ¬g₁.Has v → ¬g.Has v := fun v no h => no (has v h)
  cases second with
  | same => exact first
  | @filled _ v missing new =>
    refine .filled ?_ (new.imp_right (older v))
    cases first with
    | same => exact missing
    | filled before _ => exact before
    | longer _ => simp at missing
  | longer new =>
    cases first with
    | same => exact .longer (older _ new)
    | filled before _ => exact .filled before (.inr (older _ new))
    | longer _ => exact .longer (older _ new)

/-- A document has grown into another: every place of it has. -/
structure Grows (g : Graph) (root : Value) (g' : Graph) (root' : Value) : Prop where
  has : ∀ v, g.Has v → g'.Has v
  places : ∀ σ, Grown g (g.along root σ) (g'.along root' σ)

namespace Grows

theorem refl (g : Graph) (root : Value) : g.Grows root g root :=
  ⟨fun _ h => h, fun _ => .same _⟩

theorem trans {root₁ : Value} (a : g.Grows root g₁ root₁) (b : g₁.Grows root₁ g' root') :
    g.Grows root g' root' :=
  ⟨fun v h => b.has v (a.has v h), fun σ => (a.places σ).trans a.has (b.places σ)⟩

/-- A value that was there and is found in a place was found there before. -/
theorem old (grows : g.Grows root g' root') {σ : List String} {v : Value}
    (h : g'.along root' σ = some v) (has : g.Has v) (value : v ≠ .null) :
    g.along root σ = some v := by
  have place := grows.places σ
  rw [h] at place
  generalize g.along root σ = x at place
  cases place with
  | same => rfl
  | filled _ new =>
    rcases new with null | new
    · exact absurd null value
    · exact absurd has new
  | longer new => exact absurd has new

/-- What is found in a place is still found there, unless it is null or an array. -/
theorem kept (grows : g.Grows root g' root') {σ : List String} {v : Value}
    (h : g.along root σ = some v) (value : v ≠ .null) :
    g'.along root' σ = some v ∨
      ∃ id id', v = .sequence .array id ∧ g'.along root' σ = some (.sequence .array id') := by
  have place := grows.places σ
  rw [h] at place
  generalize g'.along root' σ = x at place
  cases place with
  | same => exact .inl rfl
  | filled missing _ => simp [value] at missing
  | longer _ => exact .inr ⟨_, _, rfl, rfl⟩

theorem kept_names (grows : g.Grows root g' root') {σ : List String} {v : Value}
    (h : g.along root σ = some v) (names : v.holdsNames) : g'.along root' σ = some v := by
  have value : v ≠ .null := by
    rintro rfl
    cases names
  rcases grows.kept h value with kept | ⟨id, id', rfl, -⟩
  · exact kept
  · cases names

/-- No place vanishes. -/
theorem isSome (grows : g.Grows root g' root') {σ : List String}
    (h : (g.along root σ).isSome) : (g'.along root' σ).isSome := by
  have place := grows.places σ
  generalize g.along root σ = x at place h
  generalize g'.along root' σ = y at place
  cases place with
  | same => exact h
  | filled => rfl
  | longer => rfl

end Grows

/-! ## Nodes in no place -/

/-- Nodes that are added are in no place. -/
theorem Treelike.along_extends (tree : g.Treelike root) (more : g.Extends g') (σ : List String) :
    g'.along root σ = g.along root σ :=
  along_congr fun α label β u _ arrives => by
    rw [slot?, slot?, more.node_eq (tree.has_of_along arrives)]

theorem Treelike.extends (tree : g.Treelike root) (more : g.Extends g') (closed : g'.Closed) :
    g'.Treelike root where
  closed := closed
  has := more.has tree.has
  unshared ρ σ v w := by
    rw [tree.along_extends more, tree.along_extends more]
    exact tree.unshared ρ σ v w

theorem Grows.of_extends (tree : g.Treelike root) (more : g.Extends g') :
    g.Grows root g' root := by
  refine ⟨fun v => more.has, fun σ => ?_⟩
  rw [tree.along_extends more]
  exact .same _

/-! ## New nodes in a place -/

/-- A new node has come to a place of a document.  Any other place shows what it showed, or is new and shows
null. -/
structure Grafts (g : Graph) (root : Value) (g' : Graph) (root' : Value) (π : List String)
    (c : Value) : Prop where
  has : ∀ v, g.Has v → g'.Has v
  closed : g'.Closed
  has_root : g'.Has root'
  new : ¬g.Has c
  place : g'.along root' π = some c
  others : ∀ σ, σ ≠ π → g'.along root' σ = g.along root σ ∨
    (g.along root σ = none ∧ g'.along root' σ = some .null)

namespace Grafts

variable {π : List String} {c : Value}

/-- What is found elsewhere was found there before, if it is not null. -/
theorem old (grafts : g.Grafts root g' root' π c) {σ : List String} {v : Value}
    (h : g'.along root' σ = some v) (elsewhere : σ ≠ π) (value : v ≠ .null) :
    g.along root σ = some v := by
  rcases grafts.others σ elsewhere with same | ⟨-, null⟩
  · rw [← same, h]
  · rw [h] at null
    exact absurd (Option.some.inj null) value

theorem treelike (grafts : g.Grafts root g' root' π c) (tree : g.Treelike root) :
    g'.Treelike root' where
  closed := grafts.closed
  has := grafts.has_root
  unshared ρ σ v w hv hw same node := by
    have value : ∀ u : Value, u.address? ≠ none → u ≠ .null := by
      rintro u hu rfl
      exact hu rfl
    -- the new node is met in its own place only, since nothing that was there has its address
    have apart : ∀ τ u, g'.along root' τ = some u → u.address? ≠ none → u.address? = c.address? →
        τ = π := by
      intro τ u hu hnode heq
      by_contra elsewhere
      have before := grafts.old hu elsewhere (value u hnode)
      exact grafts.new ((has_congr g heq).1 (tree.has_of_along before))
    have at_place : ∀ τ u, τ = π → g'.along root' τ = some u → u = c := by
      rintro τ u rfl hu
      exact Option.some.inj (hu.symm.trans grafts.place)
    by_cases hρ : ρ = π
    · have := at_place ρ v hρ hv
      subst this
      exact hρ.trans (apart σ w hw (same ▸ node) same.symm).symm
    · by_cases hσ : σ = π
      · have := at_place σ w hσ hw
        subst this
        exact (apart ρ v hv node same).trans hσ.symm
      · exact tree.unshared ρ σ v w (grafts.old hv hρ (value v node))
          (grafts.old hw hσ (value w (same ▸ node))) same node

/-- A new node where there was none, or an array in the place of another. -/
theorem grows (grafts : g.Grafts root g' root' π c)
    (before : g.along root π = none ∨ g.along root π = some .null ∨
      ∃ id id', g.along root π = some (.sequence .array id) ∧ c = .sequence .array id') :
    g.Grows root g' root' := by
  refine ⟨grafts.has, fun σ => ?_⟩
  by_cases here : σ = π
  · subst here
    rw [grafts.place]
    rcases before with h | h | ⟨id, id', h, rfl⟩
    · exact .filled (.inl h) (.inr grafts.new)
    · exact .filled (.inr h) (.inr grafts.new)
    · rw [h]
      exact .longer grafts.new
  · rcases grafts.others σ here with same | ⟨before, after⟩
    · rw [same]
      exact .same _
    · rw [after]
      exact .filled (.inl before) (.inl rfl)

end Grafts

/-- The content of a new node for a place: its slots show what the slots of the place showed, or are new and show
null. -/
def Continues (g : Graph) (root : Value) (π : List String) (n : Node) : Prop :=
  ∀ label, n.slot? label = g.along root (π ++ [label]) ∨
    (g.along root (π ++ [label]) = none ∧ n.slot? label = some .null)

theorem Continues.has {π : List String} {n : Node} (continues : g.Continues root π n)
    (tree : g.Treelike root) (label : String) (d : Value) (h : n.slot? label = some d) :
    g.Has d := by
  rcases continues label with same | ⟨-, null⟩
  · exact tree.has_of_along (same.symm.trans h)
  · rw [h] at null
    rw [Option.some.inj null]
    trivial

/-- Below a new node there is what was below its place. -/
theorem along_below {π : List String} {c : Value} {n : Node} (continues : g.Continues root π n)
    {label : String} (slot : g'.slot? c label = n.slot? label)
    (kept : ∀ α u, g.along root (π ++ label :: α) = some u → g'.node u = g.node u)
    (rest : List String) :
    g'.along c (label :: rest) = g.along root (π ++ label :: rest) ∨
      (g.along root (π ++ label :: rest) = none ∧ g'.along c (label :: rest) = some .null) := by
  have split : ∀ τ, g.along root (π ++ label :: τ) =
      (g.along root (π ++ [label])).bind (g.along · τ) := by
    intro τ
    rw [List.append_cons, along_append]
  rw [along_cons, slot, split]
  rcases continues label with same | ⟨before, null⟩
  · left
    rw [same]
    cases found : g.along root (π ++ [label]) with
    | none => rfl
    | some d =>
      refine along_congr fun α other β u _ arrives => ?_
      have reached : g.along root (π ++ label :: α) = some u := by
        rw [split, found, Option.bind_some, arrives]
      rw [slot?, slot?, kept α u reached]
  · rw [before, null]
    cases rest with
    | nil => exact .inr ⟨rfl, rfl⟩
    | cons => exact .inl rfl

namespace Treelike

/-- A new node in a slot. -/
theorem grafts (tree : g.Treelike root) {ρ : List String} {x c : Value} {n : Node} {label : String}
    (arrives : g.along root ρ = some x) (node : x.address? ≠ none) (adds : g.Adds g₁ c n)
    (put : g₁.Rewrites g' x (onlyAt label c)) (continues : g.Continues root (ρ ++ [label]) n) :
    g.Grafts root g' root (ρ ++ [label]) c := by
  have closed₁ := adds.closed tree.closed (continues.has tree)
  have has_c : g₁.Has c := (adds.has c).2 (.inr rfl)
  have has_x := tree.has_of_along arrives
  have elsewhere : ∀ u, g.Has u → u.address? ≠ x.address? → g'.node u = g.node u :=
    fun u has ne => (put.kept u ne).trans (adds.kept u has)
  have outside : ∀ σ, ¬(ρ ++ [label]) <+: σ → g'.along root σ = g.along root σ := by
    intro σ notBelow
    refine along_congr fun α other β u eq found => ?_
    have has := tree.has_of_along found
    by_cases here : u.address? = x.address?
    · obtain rfl := tree.unshared α ρ u x found arrives here (here ▸ node)
      have ne : other ≠ label := by
        rintro rfl
        exact notBelow ⟨β, by simp [eq]⟩
      rw [slot?, g'.node_congr here, ← slot?, put.slot, onlyAt, if_neg ne, Option.none_or, slot?,
        slot?, adds.kept x has_x, g.node_congr here]
    · rw [slot?, slot?, elsewhere u has here]
  have start : g'.along root ρ = some x := by
    rw [outside ρ fun h => absurd h.length_le (by simp), arrives]
  have place : g'.along root (ρ ++ [label]) = some c := by
    rw [along_concat, start, Option.bind_some, put.slot, onlyAt, if_pos rfl, Option.some_or]
  refine ⟨fun v h => (put.has v).2 ((adds.has v).2 (.inl h)), ?_, ?_, adds.new, place, ?_⟩
  · refine put.closed closed₁ fun other d h => ?_
    unfold onlyAt at h
    split at h
    · exact Option.some.inj h ▸ has_c
    · cases h
  · exact (put.has root).2 ((adds.has root).2 (.inl tree.has))
  · intro σ ne
    by_cases below : (ρ ++ [label]) <+: σ
    case neg => exact .inl (outside σ below)
    obtain ⟨τ, rfl⟩ := below
    cases τ with
    | nil => simp at ne
    | cons other τ =>
      rw [along_of_along place]
      have new_node : g'.node c = n := by
        rw [put.kept c (adds.address_ne has_x).symm, adds.node]
      refine along_below continues (by rw [slot?, new_node]) (fun α u found => ?_) τ
      refine elsewhere u (tree.has_of_along found) fun here => ?_
      -- the node that is changed is not met again below itself
      have again := tree.unshared _ ρ u x found arrives here (here ▸ node)
      have lengths := congrArg List.length again
      simp at lengths

/-- A new node for a root. -/
theorem grafts_root (tree : g.Treelike root) {c : Value} {n : Node} (adds : g.Adds g' c n)
    (continues : g.Continues root [] n) : g.Grafts root g' c [] c := by
  refine ⟨fun v h => (adds.has v).2 (.inl h), adds.closed tree.closed (continues.has tree),
    (adds.has c).2 (.inr rfl), adds.new, rfl, fun σ ne => ?_⟩
  cases σ with
  | nil => exact absurd rfl ne
  | cons label τ =>
    exact along_below continues (by rw [slot?, adds.node])
      (fun α u found => adds.kept u (tree.has_of_along found)) τ

end Treelike

/-! ## More places -/

/-- No place of a document has changed, but there may be new ones with null in them. -/
structure Pads (g : Graph) (root : Value) (g' : Graph) (root' : Value) : Prop where
  has : ∀ v, g.Has v → g'.Has v
  closed : g'.Closed
  places : ∀ σ, g'.along root' σ = g.along root σ ∨
    (g.along root σ = none ∧ g'.along root' σ = some .null)

namespace Pads

theorem old (pads : g.Pads root g' root') {σ : List String} {v : Value}
    (h : g'.along root' σ = some v) (value : v ≠ .null) : g.along root σ = some v := by
  rcases pads.places σ with same | ⟨-, null⟩
  · rw [← same, h]
  · rw [h] at null
    exact absurd (Option.some.inj null) value

theorem treelike (pads : g.Pads root g' root) (tree : g.Treelike root) : g'.Treelike root where
  closed := pads.closed
  has := pads.has root tree.has
  unshared ρ σ v w hv hw same node := by
    have value : ∀ u : Value, u.address? ≠ none → u ≠ .null := by
      rintro u hu rfl
      exact hu rfl
    exact tree.unshared ρ σ v w (pads.old hv (value v node)) (pads.old hw (value w (same ▸ node)))
      same node

theorem grows (pads : g.Pads root g' root') : g.Grows root g' root' := by
  refine ⟨pads.has, fun σ => ?_⟩
  rcases pads.places σ with same | ⟨before, after⟩
  · rw [same]
    exact .same _
  · rw [after]
    exact .filled (.inl before) (.inl rfl)

end Pads

/-- A node that nobody holds. -/
theorem Treelike.pads_of_adds (tree : g.Treelike root) {c : Value} {n : Node}
    (adds : g.Adds g' c n) (children : ∀ label d, n.slot? label = some d → g.Has d) :
    g.Pads root g' root := by
  refine ⟨fun v h => (adds.has v).2 (.inl h), adds.closed tree.closed children, fun σ => .inl ?_⟩
  exact along_congr fun α label β u _ found => by
    rw [slot?, slot?, adds.kept u (tree.has_of_along found)]

/-- A sequence that is filled up. -/
theorem Treelike.pads (tree : g.Treelike root) {π : List String} {x : Value}
    {values : String → Option Value} (arrives : g.along root π = some x) (node : x.address? ≠ none)
    (fill : g.Rewrites g' x values)
    (nulls : ∀ label d, values label = some d → d = .null ∧ g.slot? x label = none) :
    g.Pads root g' root := by
  have closed : g'.Closed := fill.closed tree.closed fun label d h => (nulls label d h).1 ▸ trivial
  have outside : ∀ σ, (∀ label β, σ = π ++ label :: β → values label = none) →
      g'.along root σ = g.along root σ := by
    intro σ free
    refine along_congr fun α label β u eq found => ?_
    by_cases here : u.address? = x.address?
    · obtain rfl := tree.unshared α π u x found arrives here (here ▸ node)
      rw [slot?, g'.node_congr here, ← slot?, fill.slot, free label β eq, Option.none_or, slot?,
        slot?, g.node_congr here]
    · rw [slot?, slot?, fill.kept u here]
  have start : g'.along root π = some x := by
    rw [outside π fun label β eq => by simpa using congrArg List.length eq, arrives]
  refine ⟨fun v h => (fill.has v).2 h, closed, fun σ => ?_⟩
  by_cases free : ∀ label β, σ = π ++ label :: β → values label = none
  · exact .inl (outside σ free)
  · simp only [not_forall] at free
    obtain ⟨label, β, rfl, filled⟩ := free
    obtain ⟨d, hd⟩ := Option.ne_none_iff_exists'.1 filled
    obtain ⟨rfl, absent⟩ := nulls label d hd
    have after : g'.slot? x label = some .null := by rw [fill.slot, hd, Option.some_or]
    rw [along_of_along start, along_of_along arrives, along_cons, along_cons, absent, after]
    cases β with
    | nil => exact .inr ⟨rfl, rfl⟩
    | cons => exact .inl rfl

/-! ## Where new nulls stand -/

/-- A null that is new stands directly below the place of a change. -/
theorem below_of_new_null {π σ : List String}
    (others : ∀ τ, τ ≠ π → g'.along root' τ = g.along root τ ∨
      (g.along root τ = none ∧ g'.along root' τ = some .null))
    (slots : ∀ τ u label, τ ≠ π → g.along root τ = some u → g.slot? u label = none →
      g'.slot? u label ≠ some .null)
    (absent : g.along root σ = none) (null : g'.along root' σ = some .null) :
    ∃ label, σ = π ++ [label] := by
  rcases List.eq_nil_or_concat σ with rfl | ⟨τ, label, rfl⟩
  · cases absent
  rw [List.concat_eq_append] at *
  refine ⟨label, congrArg (· ++ [label]) ?_⟩
  have slot := null
  rw [along_concat, Option.bind_eq_some_iff] at slot
  obtain ⟨u, arrives, slot⟩ := slot
  by_contra away
  rcases others τ away with same | ⟨-, null⟩
  · rw [same] at arrives
    rw [along_concat, arrives, Option.bind_some] at absent
    exact slots τ u label away arrives absent slot
  · rw [arrives, Option.some.injEq] at null
    subst null
    cases slot

namespace Treelike

variable {π σ : List String} {x c : Value} {n : Node} {label : String}

/-- A new node in a slot brings the nulls that are in its own slots. -/
theorem null_of_graft (tree : g.Treelike root) (arrives : g.along root π = some x)
    (node : x.address? ≠ none) (adds : g.Adds g₁ c n) (put : g₁.Rewrites g' x (onlyAt label c))
    (continues : g.Continues root (π ++ [label]) n) (absent : g.along root σ = none)
    (null : g'.along root σ = some .null) :
    ∃ other, σ = π ++ [label] ++ [other] ∧ n.slot? other = some .null := by
  have grafts := tree.grafts arrives node adds put continues
  obtain ⟨other, rfl⟩ := below_of_new_null grafts.others (fun τ u name _ found absent => by
    intro null
    by_cases here : u.address? = x.address?
    · rw [slot?, g'.node_congr here, ← slot?, put.slot, slot?, adds.kept x (tree.has_of_along arrives),
        ← g.node_congr here, ← slot?, absent, Option.or_none, onlyAt] at null
      split at null
      · cases null
        exact adds.new trivial
      · cases null
    · rw [slot?, put.kept u here, adds.kept u (tree.has_of_along found), ← slot?, absent] at null
      cases null) absent null
  refine ⟨other, rfl, ?_⟩
  rwa [along_concat, grafts.place, Option.bind_some, slot?,
    put.kept c (adds.address_ne (tree.has_of_along arrives)).symm, adds.node] at null

/-- So does a new node for a root. -/
theorem null_of_graft_root (tree : g.Treelike root) (adds : g.Adds g' c n)
    (continues : g.Continues root [] n) (absent : g.along root σ = none)
    (null : g'.along c σ = some .null) : ∃ other, σ = [other] ∧ n.slot? other = some .null := by
  have grafts := tree.grafts_root adds continues
  obtain ⟨other, rfl⟩ := below_of_new_null grafts.others (fun τ u name _ found absent => by
    rw [slot?, adds.kept u (tree.has_of_along found), ← slot?, absent]
    simp) absent null
  refine ⟨other, rfl, ?_⟩
  rwa [along_concat, along_nil, Option.bind_some, slot?, adds.node] at null

/-- A sequence that is filled up gets the nulls that it is filled up with. -/
theorem null_of_pad (tree : g.Treelike root) {values : String → Option Value}
    (arrives : g.along root π = some x) (node : x.address? ≠ none) (fill : g.Rewrites g' x values)
    (nulls : ∀ label d, values label = some d → d = .null ∧ g.slot? x label = none)
    (absent : g.along root σ = none) (null : g'.along root σ = some .null) :
    ∃ other, σ = π ++ [other] ∧ values other = some .null := by
  have pads := tree.pads arrives node fill nulls
  have place : g'.along root π = some x := by
    rcases pads.places π with same | ⟨absent, -⟩
    · rw [same, arrives]
    · rw [arrives] at absent
      cases absent
  obtain ⟨other, rfl⟩ := below_of_new_null (π := π) (fun τ _ => pads.places τ)
    (fun τ u name away found absent null => by
      have apart : u.address? ≠ x.address? := fun same =>
        away (tree.unshared τ π u x found arrives same (same ▸ node))
      rw [slot?, fill.kept u apart, ← slot?, absent] at null
      cases null) absent null
  refine ⟨other, rfl, ?_⟩
  rw [along_concat, arrives, Option.bind_some] at absent
  rwa [along_concat, place, Option.bind_some, fill.slot, absent, Option.or_none] at null

end Treelike

end Graph

end FieldBinding
