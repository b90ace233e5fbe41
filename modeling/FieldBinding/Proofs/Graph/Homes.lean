import FieldBinding.Proofs.Graph.Ahead

/-!
# Places that nodes stay in

A handle may outlive the place that it was taken from: an array is replaced by a longer one, and a list that is cut off
loses what it held.  But a node does not move.  What is still found in a document is found where it was, and a place
gets a node only if the node is new.  `Graph.Homed` says of a value that it is found in one place if at all, and
`Graph.Inherits` says of a change that it leaves every node at home.

Main results:

* `Graph.Inherits.graft`, `Graph.Inherits.graft_root`, `Graph.Inherits.resize` — a new node in a slot or for the root,
  and a sequence that is filled up or cut off, leave every node at home.
* `Graph.Homed.of_old`, `Graph.Outside.inherited` — what is in one place, or in none, stays so.
-/

namespace FieldBinding.Graph

variable {g g₁ g' : Graph} {root root₁ root' v c x : Value} {ρ π κ : List String} {label : String} {n : Node}

theorem along_singleton (g : Graph) (v : Value) (label : String) : g.along v [label] = g.slot? v label := by
  rw [along_cons]
  cases g.slot? v label <;> rfl

/-! ## Nodes that are in no place, or in one -/

/-- The node of a value is in no place of a document. -/
def Outside (g : Graph) (root v : Value) : Prop :=
  ∀ σ u, g.along root σ = some u → u.address? = v.address? → v.address? = none

/-- The node of a value is in no place of a document but one, and there it goes by this value. -/
structure Homed (g : Graph) (root : Value) (ρ : List String) (v : Value) : Prop where
  has : g.Has v
  only : ∀ σ u, g.along root σ = some u → u.address? = v.address? → v.address? ≠ none → σ = ρ ∧ u = v

/-- A value is at home in a place, and what it holds is in the places below. -/
structure Housed (g : Graph) (root : Value) (ρ : List String) (v : Value) : Prop where
  home : Homed g root ρ v
  children : ∀ label c, g.slot? v label = some c → Homed g root (ρ ++ [label]) c

theorem Outside.of_leaf (leaf : v.address? = none) : g.Outside root v :=
  fun _ _ _ _ => leaf

theorem Outside.null (g : Graph) (v : Value) : g.Outside .null v := by
  intro σ u arrives same
  cases σ with
  | nil =>
    cases arrives
    exact same.symm
  | cons label rest => cases arrives

theorem Homed.null (g : Graph) (root : Value) (ρ : List String) : g.Homed root ρ .null :=
  ⟨trivial, fun _ _ _ _ node => absurd rfl node⟩

theorem Treelike.homed (tree : g.Treelike root) (arrives : g.along root ρ = some v) : g.Homed root ρ v where
  has := tree.has_of_along arrives
  only σ u found same node := by
    obtain rfl := tree.unshared σ ρ u v found arrives same (same ▸ node)
    exact ⟨rfl, Option.some.inj (found.symm.trans arrives)⟩

theorem Treelike.housed (tree : g.Treelike root) (arrives : g.along root ρ = some v) : g.Housed root ρ v where
  home := tree.homed arrives
  children label c slot := tree.homed (by rw [along_concat, arrives, Option.bind_some, slot])

/-- What is found in a grown document was found before, if its node was there. -/
theorem Grows.found_before (grows : g.Grows root g' root') (has : g.Has v) {σ : List String} {u : Value}
    (found : g'.along root' σ = some u) (same : u.address? = v.address?) (node : v.address? ≠ none) :
    g.along root σ = some u := by
  refine grows.old found ((has_congr g same).2 has) ?_
  rintro rfl
  exact node same.symm

theorem Outside.grown (outside : g.Outside root v) (has : g.Has v)
    (grows : g.Grows root g' root') : g'.Outside root' v := by
  intro σ u found same
  by_contra node
  exact node (outside σ u (grows.found_before has found same node) same)

/-! ## Changes that leave every node at home -/

/-- A document has become another in which no node has moved, though some may have been cut off. -/
structure Inherits (g : Graph) (root : Value) (g' : Graph) (root' : Value) : Prop where
  has : ∀ v, g.Has v → g'.Has v
  tree : g'.Treelike root'
  old : ∀ σ u, g'.along root' σ = some u → g.Has u → u ≠ .null → g.along root σ = some u
  housed : ∀ ρ v, g.Housed root ρ v → g'.Housed root' ρ v

theorem Inherits.refl (tree : g.Treelike root) : g.Inherits root g root :=
  ⟨fun _ h => h, tree, fun _ _ found _ _ => found, fun _ _ h => h⟩

theorem Inherits.trans (first : g.Inherits root g₁ root₁) (second : g₁.Inherits root₁ g' root') :
    g.Inherits root g' root' where
  has v h := second.has v (first.has v h)
  tree := second.tree
  old σ u found has value := first.old σ u (second.old σ u found (first.has u has) value) has value
  housed ρ v h := second.housed ρ v (first.housed ρ v h)

theorem Outside.inherited (outside : g.Outside root v) (has : g.Has v) (inherits : g.Inherits root g' root') :
    g'.Outside root' v := by
  intro σ u found same
  by_contra node
  have value : u ≠ .null := by
    rintro rfl
    exact node same.symm
  exact node (outside σ u (inherits.old σ u found ((has_congr g same).2 has) value) same)

theorem Homed.of_old (homed : g.Homed root ρ v) (has : g'.Has v)
    (old : ∀ σ u, g'.along root' σ = some u → g.Has u → u ≠ .null → g.along root σ = some u) :
    g'.Homed root' ρ v where
  has := has
  only σ u found same node := by
    have value : u ≠ .null := by
      rintro rfl
      exact node same.symm
    exact homed.only σ u (old σ u found ((has_congr g same).2 homed.has) value) same node

/-- A value that holds something has a node. -/
theorem address_of_slot? {d : Value} (slot : g.slot? v label = some d) : v.address? ≠ none := by
  intro leaf
  cases v <;> cases leaf <;> cases slot

/-- Where slots are what they were, but that one of them has got a new value, and the new value holds what was below
the place before, every place shows what it showed or the new value. -/
theorem along_of_slots (top : root' = root ∨ κ = [] ∧ root' = c)
    (slots : ∀ σ p label u, g.along root σ = some p → g'.slot? p label = some u → u ≠ .null →
      g.slot? p label = some u ∨ σ ++ [label] = κ ∧ u = c)
    (below : ∀ label u, g'.slot? c label = some u → u ≠ .null → g.along root (κ ++ [label]) = some u)
    {σ : List String} {u : Value} (arrives : g'.along root' σ = some u) (value : u ≠ .null) :
    g.along root σ = some u ∨ σ = κ ∧ u = c := by
  induction σ using List.reverseRecOn generalizing u with
  | nil =>
    obtain rfl := Option.some.inj arrives
    rcases top with rfl | ⟨rfl, rfl⟩
    · exact .inl rfl
    · exact .inr ⟨rfl, rfl⟩
  | append_singleton σ label ih =>
    rw [along_concat, Option.bind_eq_some_iff] at arrives
    obtain ⟨p, arrives, slot⟩ := arrives
    have holds : p ≠ .null := by
      rintro rfl
      cases slot
    rcases ih arrives holds with before | ⟨rfl, rfl⟩
    · refine (slots σ p label u before slot value).imp_left fun same => ?_
      rw [along_concat, before, Option.bind_some, same]
    · exact .inl (below label u slot value)

namespace Inherits

/-- A change of slots that brings in one new node at most leaves every node at home. -/
theorem of_slots (tree : g.Treelike root) (has : ∀ v, g.Has v → g'.Has v) (closed : g'.Closed)
    (has_root : g'.Has root') (new : c ≠ .null → ¬g.Has c) (top : root' = root ∨ κ = [] ∧ root' = c)
    (slots : ∀ o label u, g.Has o → g'.slot? o label = some u → u ≠ .null → g.slot? o label = some u ∨
      ∃ σ p, g.along root σ = some p ∧ p.address? = o.address? ∧ σ ++ [label] = κ ∧ u = c)
    (below : ∀ label u, g'.slot? c label = some u → u ≠ .null → g.along root (κ ++ [label]) = some u) :
    g.Inherits root g' root' := by
  have places : ∀ σ u, g'.along root' σ = some u → u ≠ .null → g.along root σ = some u ∨ σ = κ ∧ u = c := by
    intro σ u arrives value
    refine along_of_slots top (fun τ p label d found slot d_value => ?_) below arrives value
    refine (slots p label d (tree.has_of_along found) slot d_value).imp_right ?_
    rintro ⟨τ', p', found', same, rfl, rfl⟩
    obtain rfl := tree.unshared τ' τ p' p found' found same (same ▸ address_of_slot? slot)
    exact ⟨rfl, rfl⟩
  have value_of : ∀ u : Value, u.address? ≠ none → u ≠ .null := by
    rintro u node rfl
    exact node rfl
  have apart : ∀ σ u, g.along root σ = some u → u.address? = c.address? → u.address? ≠ none → False := by
    intro σ u found same node
    exact new (value_of c (same ▸ node)) ((has_congr g same).1 (tree.has_of_along found))
  have old : ∀ σ u, g'.along root' σ = some u → g.Has u → u ≠ .null → g.along root σ = some u := by
    intro σ u found has value
    rcases places σ u found value with before | ⟨-, rfl⟩
    · exact before
    · exact absurd has (new value)
  refine ⟨has, ⟨closed, has_root, fun ρ σ v w hv hw same node => ?_⟩, old, fun ρ o ⟨home, children⟩ => ?_⟩
  · rcases places ρ v hv (value_of v node) with before | ⟨rfl, rfl⟩ <;>
      rcases places σ w hw (value_of w (same ▸ node)) with before' | ⟨rfl, rfl⟩
    · exact tree.unshared ρ σ v w before before' same node
    · exact (apart ρ v before same node).elim
    · exact (apart σ w before' same.symm (same ▸ node)).elim
    · rfl
  · refine ⟨home.of_old (has o home.has) old, fun label d slot => ?_⟩
    by_cases null : d = .null
    · exact null ▸ .null g' root' _
    have has_d : g'.Has d := closed.has_of_slot? (has o home.has) slot
    rcases slots o label d home.has slot null with same | ⟨σ, p, found, same, place, rfl⟩
    · exact (children label d same).of_old has_d old
    · obtain ⟨rfl, -⟩ := home.only σ p found same (address_of_slot? slot)
      refine ⟨has_d, fun τ u arrives same node => ?_⟩
      rcases places τ u arrives (value_of u (same ▸ node)) with before | ⟨rfl, rfl⟩
      · exact (apart τ u before same (same ▸ node)).elim
      · exact ⟨place.symm, rfl⟩

/-- A new node in a slot, which holds what was below its place. -/
theorem graft (tree : g.Treelike root) (arrives : g.along root π = some x) (adds : g.Adds g₁ c n)
    (put : g₁.Rewrites g' x (onlyAt label c))
    (below : ∀ other d, n.slot? other = some d → d ≠ .null → g.along root (π ++ [label] ++ [other]) = some d) :
    g.Inherits root g' root := by
  have has : ∀ v, g.Has v → g'.Has v := fun v h => (put.has v).2 ((adds.has v).2 (.inl h))
  have closed₁ : g₁.Closed := adds.closed tree.closed fun other d slot => by
    by_cases null : d = .null
    · exact null ▸ trivial
    · exact tree.has_of_along (below other d slot null)
  have closed : g'.Closed := put.closed closed₁ fun other d stored => by
    unfold onlyAt at stored
    split at stored
    · exact Option.some.inj stored ▸ (adds.has c).2 (.inr rfl)
    · cases stored
  refine .of_slots tree has closed (has root tree.has) (κ := π ++ [label]) (c := c) (fun _ => adds.new) (.inl rfl)
    (fun o other u has_o slot _ => ?_) fun other u slot value => ?_
  · have kept : g₁.slot? o other = g.slot? o other := by rw [slot?, slot?, adds.kept o has_o]
    rw [put.slot_eq, kept] at slot
    split at slot
    · next here =>
      unfold onlyAt at slot
      split at slot
      · next same => exact .inr ⟨π, x, arrives, here.symm, by rw [same], (Option.some.inj slot).symm⟩
      · exact .inl slot
    · exact .inl slot
  · refine below other u ?_ value
    rwa [slot?, put.kept c (adds.address_ne (tree.has_of_along arrives)).symm, adds.node] at slot

/-- A new node for the root. -/
theorem graft_root (tree : g.Treelike root) (adds : g.Adds g' c n)
    (below : ∀ other d, n.slot? other = some d → d ≠ .null → g.along root [other] = some d) :
    g.Inherits root g' c := by
  refine .of_slots tree (fun v h => (adds.has v).2 (.inl h)) (adds.closed tree.closed fun other d slot => ?_)
    ((adds.has c).2 (.inr rfl)) (κ := []) (c := c) (fun _ => adds.new) (.inr ⟨rfl, rfl⟩)
    (fun o other u has_o slot _ => .inl ?_) fun other u slot value => ?_
  · by_cases null : d = .null
    · exact null ▸ trivial
    · exact tree.has_of_along (below other d slot null)
  · rwa [slot?, adds.kept o has_o] at slot
  · exact below other u (by rwa [slot?, adds.node] at slot) value

/-- A sequence that is filled up or cut off. -/
theorem resize (tree : g.Treelike root) (change : g.Resizes g' x) : g.Inherits root g' root :=
  .of_slots tree (fun v h => (change.has v).2 h) (change.closed tree.closed) ((change.has root).2 tree.has)
    (κ := []) (c := .null) (fun value => absurd rfl value) (.inl rfl)
    (fun _ _ _ _ slot value => .inl ((change.slot_eq slot).resolve_left value)) fun _ _ slot => by cases slot

/-- Nodes that are added. -/
theorem of_extends (tree : g.Treelike root) (more : g.Extends g') (closed : g'.Closed) : g.Inherits root g' root :=
  .of_slots tree (fun _ => more.has) closed (more.has tree.has) (κ := []) (c := .null) (fun value => absurd rfl value)
    (.inl rfl) (fun o label u has slot _ => .inl (by rwa [slot?, more.node_eq has] at slot)) fun _ _ slot => by
      cases slot

end Inherits

end FieldBinding.Graph
