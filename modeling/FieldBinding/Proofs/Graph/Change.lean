import FieldBinding.Proofs.Graph.Acyclic

/-!
# Changes of one node

The writer works its way down a graph and changes it one node at a time: it adds nodes and then puts one of
them into a slot of a node that was there, or fills up a list with nulls or cuts it off.  `Graph.Change` is what such a
change guarantees to everybody else.

Main results:

* `Graph.Change.of_rewrites` — a rewritten node, with acyclic values in its slots, is a change.
* `Graph.Change.of_stored` — so is a slot that gets a value from which its node is not found.
-/

namespace FieldBinding.Graph

variable {g g₁ g' : Graph} {x : Value}

theorem Rewrites.children_of {values : String → Option Value} (change : g.Rewrites g' x values)
    {v c : Value} (child : c ∈ g'.children v) :
    c ∈ g.children v ∨ ∃ label, values label = some c := by
  by_cases here : v.address? = x.address?
  · rw [children_eq_of_node_eq (g'.node_congr here)] at child
    obtain ⟨label, h⟩ := (g'.mem_children_iff x c).1 child
    rw [change.slot, Option.or_eq_some_iff] at h
    rcases h with h | ⟨-, h⟩
    · exact .inr ⟨label, h⟩
    · rw [children_eq_of_node_eq (g.node_congr here)]
      exact .inl ((g.mem_children_iff x c).2 ⟨label, h⟩)
  · rw [children_eq_of_node_eq (change.kept v here)] at child
    exact .inl child

theorem Rewrites.closed {values : String → Option Value} (change : g.Rewrites g' x values)
    (closed : g.Closed) (stored : ∀ label c, values label = some c → g.Has c) : g'.Closed := by
  intro v c has child
  rw [change.has] at has ⊢
  rcases change.children_of child with child | ⟨label, h⟩
  · exact closed v c has child
  · exact stored label c h

/-- A node that is resized has no new child but null. -/
theorem Resizes.children_of (change : g.Resizes g' x) {v c : Value} (child : c ∈ g'.children v) :
    c = .null ∨ c ∈ g.children v := by
  obtain ⟨label, held⟩ := (g'.mem_children_iff v c).1 child
  exact (change.slot_eq held).imp_right fun old => (g.mem_children_iff v c).2 ⟨label, old⟩

theorem Resizes.closed (change : g.Resizes g' x) (closed : g.Closed) : g'.Closed := by
  intro v c has child
  rw [change.has] at has ⊢
  rcases change.children_of child with rfl | old
  · trivial
  · exact closed v c has old

/-- All nodes but one are as they were. -/
def SameBut (g g' : Graph) (x : Value) : Prop :=
  ∀ v, g.Has v → v.address? ≠ x.address? → g'.node v = g.node v

/-- A change of one node: nodes may be added, and one that was there gets other values in its slots.  No cycle
comes about. -/
structure Change (g g' : Graph) (x : Value) : Prop where
  has : ∀ v, g.Has v → g'.Has v
  closed : g'.Closed
  kept : g.SameBut g' x
  acyclic : ∀ v, g.Has v → g.Acyclic v → g'.Acyclic v

namespace Change

theorem refl (closed : g.Closed) (x : Value) : g.Change g x :=
  ⟨fun _ h => h, closed, fun _ _ _ => rfl, fun _ _ h => h⟩

/-- Added nodes are a change of any node. -/
theorem of_extends (closed : g.Closed) (more : g.Extends g') (closed' : g'.Closed) (x : Value) :
    g.Change g' x :=
  ⟨fun _ h => more.has h, closed', fun _ h _ => more.node_eq h, fun _ h a => a.grown more closed h⟩

/-- Two changes of the same node are one. -/
theorem trans (a : g.Change g₁ x) (b : g₁.Change g' x) : g.Change g' x :=
  ⟨fun v h => b.has v (a.has v h), b.closed,
    fun v h ne => (b.kept v (a.has v h) ne).trans (a.kept v h ne),
    fun v h acyclic => b.acyclic v (a.has v h) (a.acyclic v h acyclic)⟩

theorem of_rewrites {values : String → Option Value} (closed : g.Closed)
    (change : g.Rewrites g' x values)
    (stored : ∀ label c, values label = some c → g.Has c ∧ g'.Acyclic c) : g.Change g' x where
  has v h := (change.has v).2 h
  closed := change.closed closed fun label c h => (stored label c h).1
  kept v _ ne := change.kept v ne
  acyclic _ _ a := a.rewrites change fun label c h => (stored label c h).2

/-- A slot that gets an acyclic value from which its node is not found. -/
theorem of_stored {label : String} {c : Value} (closed : g.Closed)
    (change : g.Rewrites g' x (onlyAt label c)) (has : g.Has c) (acyclic : g.Acyclic c)
    (apart : ∀ w, g.Reaches c w → w.address? ≠ x.address?) : g.Change g' x := by
  refine of_rewrites closed change fun other d h => ?_
  unfold onlyAt at h
  split at h
  case isFalse => cases h
  rw [Option.some.injEq] at h
  subst h
  exact ⟨has, acyclic.rewrites_apart change apart⟩

/-- Added nodes of which a value is made that then gets into a slot. -/
theorem of_made {label : String} {c : Value} (closed : g.Closed) (more : g.Extends g₁)
    (closed₁ : g₁.Closed) (made : MadeSince g g₁ c) (has : g.Has x) (node : x.address? ≠ none)
    (change : g₁.Rewrites g' x (onlyAt label c)) : g.Change g' x := by
  refine (of_extends closed more closed₁ x).trans
    (of_stored closed₁ change made.has made.acyclic fun w reached same => ?_)
  -- the node that is changed was there, and nothing below the new value was
  have old : g.Has w := (has_congr g same).2 has
  exact node (same ▸ made.fresh w reached old)

theorem of_resizes (closed : g.Closed) (change : g.Resizes g' x) : g.Change g' x where
  has v h := (change.has v).2 h
  closed := change.closed closed
  kept v _ ne := change.kept v ne
  acyclic _ _ a := a.of_fewer fun _ _ => change.children_of

/-- A list that is filled up with nulls, or cut off where the index has no room. -/
theorem of_padded {kind : SequenceKind} {id : NodeId} (closed : g.Closed)
    (has : g.Has (.sequence kind id)) (index : Nat) :
    g.Change (g.setItems id (padded (g.sequence id).items index)) (.sequence kind id) :=
  of_resizes closed (setItems_padded_resizes has index)

/-- A node that is found below itself may get any values: whatever is acyclic is not above it. -/
theorem of_cyclic {values : String → Option Value} (closed : g.Closed) (more : g.Extends g₁)
    (closed₁ : g₁.Closed) (change : g₁.Rewrites g' x values)
    (stored : ∀ label c, values label = some c → g₁.Has c) (cyclic : ¬g.Acyclic x) :
    g.Change g' x where
  has v h := (change.has v).2 (more.has h)
  closed := change.closed closed₁ stored
  kept v h ne := (change.kept v ne).trans (more.node_eq h)
  acyclic v h a := by
    refine (a.grown more closed h).rewrites_apart change fun w reached same => cyclic ?_
    have above : g.Acyclic w := a.of_reaches (.of_extends more closed h reached)
    refine .of_children fun c hc => above.inv ?_
    rwa [children_eq_of_node_eq (g.node_congr same)]

/-- A new sequence of values that were found strictly below the node that gets it. -/
theorem of_newSequence {kind : SequenceKind} {node : Sequence} {label : String} (closed : g.Closed)
    (has : g.Has x) (address : x.address? ≠ none)
    (items : ∀ d ∈ node.items, d = .null ∨ g.Below x d)
    (change : (g.newSequence kind node).2.Rewrites g' x
      (onlyAt label (g.newSequence kind node).1)) : g.Change g' x := by
  have more := newSequence_extends g kind node
  have held : ∀ d ∈ node.items, g.Has d := by
    intro d hd
    rcases items d hd with rfl | below
    · trivial
    · have reached : g.Reaches x d := below.to_reflTransGen
      exact reached.has closed has
  have closed₁ := newSequence_closed closed kind node held
  have stored := has_newSequence g kind node
  by_cases acyclic : g.Acyclic x
  case neg =>
    refine of_cyclic closed more closed₁ change (fun other c h => ?_) acyclic
    unfold onlyAt at h
    split at h
    · exact Option.some.inj h ▸ stored
    · cases h
  have children : ∀ d ∈ (g.newSequence kind node).2.children (g.newSequence kind node).1,
      d ∈ node.items := by
    intro d hd
    simpa [newSequence, Graph.children, sequence, Store.get_push_next] using hd
  refine (of_extends closed more closed₁ x).trans (of_stored closed₁ change stored ?_ ?_)
  · refine .of_children fun d hd => ?_
    have item := children d hd
    have acyclic_item : g.Acyclic d := by
      rcases items d item with rfl | below
      · exact .null g
      · exact acyclic.of_reaches below.to_reflTransGen
    exact acyclic_item.grown more closed (held d item)
  · intro w reached same
    rcases Relation.ReflTransGen.cases_head reached with rfl | ⟨d, hd, rest⟩
    · -- the new sequence was not there before
      exact Nat.lt_irrefl _ ((has_congr g same).2 has)
    · have rest' := Reaches.of_extends more closed (held d (children d hd)) rest
      rcases items d (children d hd) with rfl | below
      · rcases Relation.ReflTransGen.cases_head rest' with rfl | ⟨e, he, _⟩
        · exact address same.symm
        · simp [Graph.children] at he
      · exact acyclic.address_ne (below.trans_left rest') same

end Change

end FieldBinding.Graph
