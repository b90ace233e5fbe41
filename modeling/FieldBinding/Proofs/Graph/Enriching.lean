import FieldBinding.Proofs.Graph.Routes

/-!
# Enriched graphs

What the writer does on its way to a place only adds to a document.  A null may be filled, a list may be filled
up, and under a name a longer array may take the place of an array; everything else stays where it was.
`Graph.Enriches` says so of two graphs, whoever shares what in them, and it can be strung together, so it holds
from one end of a run of the writer to the other.

An index that is too large for a length cuts a sequence off instead.  So what is said about slots has a condition, and
the rest is said without it.

Main results:

* `Graph.Enriches.trans` — a graph that is enriched twice is enriched.
* `Graph.Enriches.of_change` — a node of which no slot is lost, and which gets values where it held null, or
  longer arrays where it held arrays, is enriched.
* `Graph.Became.items` — a sequence gets no shorter, and loses no element.
-/

namespace FieldBinding.Graph

variable {g g₁ g' : Graph} {x : Value}

/-- What one node held is held by another, except that a null may have been filled. -/
def Keeps (g g' : Graph) (v w : Value) : Prop :=
  ∀ label u, g.slot? v label = some u → ∃ u', g'.slot? w label = some u' ∧ (u = .null ∨ u' = u)

theorem Keeps.trans {u v w : Value} (a : g.Keeps g₁ u v) (b : g₁.Keeps g' v w) : g.Keeps g' u w := by
  intro label c held
  obtain ⟨c₁, held₁, null | rfl⟩ := a label c held
  · obtain ⟨c₂, held₂, -⟩ := b label c₁ held₁
    exact ⟨c₂, held₂, .inl null⟩
  · exact b label _ held₁

/-- What stands where a value stood: the value itself, or for an array a longer one with its elements. -/
inductive Became (g g' : Graph) : Value → Value → Prop where
  | same (v : Value) : Became g g' v v
  | longer {id id' : NodeId} (has : g'.Has (.sequence .array id'))
      (keeps : g.Keeps g' (.sequence .array id) (.sequence .array id')) :
      Became g g' (.sequence .array id) (.sequence .array id')

theorem Became.ne_null {v w : Value} (became : g.Became g' v w) (value : v ≠ .null) : w ≠ .null := by
  cases became with
  | same => exact value
  | longer => simp

/-- A graph has been added to: no node is lost.  If there was room, then no slot is lost either, and a slot that did
not hold null holds what it held, or under a name a longer array for an array. -/
structure Enriches (g g' : Graph) (room : Prop) : Prop where
  has : ∀ v, g.Has v → g'.Has v
  closed : g'.Closed
  acyclic : ∀ v, g.Has v → g.Acyclic v → g'.Acyclic v
  kind : ∀ v, g.Has v → (g'.node v).kind = (g.node v).kind
  slots : room → ∀ v label u, g.Has v → g.slot? v label = some u → ∃ u', g'.slot? v label = some u' ∧
    (u = .null ∨ g.Became g' u u' ∧ (u' = u ∨ v.holdsNames))

variable {room room' : Prop}

namespace Enriches

theorem mono (e : g.Enriches g' room) (weaker : room' → room) : g.Enriches g' room' :=
  { e with slots := fun h => e.slots (weaker h) }

/-- Where children have no names, each stays the very same. -/
theorem keeps (e : g.Enriches g' room) (roomy : room) {v : Value} (has : g.Has v) (unnamed : ¬v.holdsNames) :
    g.Keeps g' v v := by
  intro label u held
  obtain ⟨u', held', null | ⟨-, same | named⟩⟩ := e.slots roomy v label u has held
  · exact ⟨u', held', .inl null⟩
  · exact ⟨u', held', .inr same⟩
  · exact absurd named unnamed

end Enriches

theorem Became.trans (e₁ : g.Enriches g₁ room) (e₂ : g₁.Enriches g' room) (roomy : room) {u v w : Value}
    (has : g.Has u) (a : g.Became g₁ u v) (b : g₁.Became g' v w) : g.Became g' u w := by
  cases b with
  | same =>
    cases a with
    | same => exact .same _
    | longer has₁ keeps₁ =>
      exact .longer (e₂.has _ has₁) (keeps₁.trans (e₂.keeps roomy has₁ (by simp [Value.holdsNames])))
  | longer has₂ keeps₂ =>
    cases a with
    | same => exact .longer has₂ ((e₁.keeps roomy has (by simp [Value.holdsNames])).trans keeps₂)
    | longer has₁ keeps₁ => exact .longer has₂ (keeps₁.trans keeps₂)

namespace Enriches

theorem refl (closed : g.Closed) : g.Enriches g room where
  has _ h := h
  closed := closed
  acyclic _ _ h := h
  kind _ _ := rfl
  slots _ _ _ u _ held := ⟨u, held, .inr ⟨.same u, .inl rfl⟩⟩

theorem trans (closed : g.Closed) (a : g.Enriches g₁ room) (b : g₁.Enriches g' room) : g.Enriches g' room where
  has v h := b.has v (a.has v h)
  closed := b.closed
  acyclic v h acyclic := b.acyclic v (a.has v h) (a.acyclic v h acyclic)
  kind v h := (b.kind v (a.has v h)).trans (a.kind v h)
  slots roomy v label u has held := by
    obtain ⟨u₁, held₁, case₁⟩ := a.slots roomy v label u has held
    obtain ⟨u₂, held₂, case₂⟩ := b.slots roomy v label u₁ (a.has v has) held₁
    refine ⟨u₂, held₂, ?_⟩
    rcases case₁ with null | ⟨became₁, same₁⟩
    · exact .inl null
    by_cases null : u = .null
    · exact .inl null
    rcases case₂ with null₁ | ⟨became₂, same₂⟩
    · exact absurd null₁ (became₁.ne_null null)
    refine .inr ⟨became₁.trans a b roomy (closed.has_of_slot? has held) became₂, ?_⟩
    rcases same₁ with rfl | names
    · exact same₂
    · exact .inr names

/-- Added nodes enrich a graph. -/
theorem of_extends (closed : g.Closed) (more : g.Extends g') (closed' : g'.Closed) :
    g.Enriches g' room where
  has _ := more.has
  closed := closed'
  acyclic _ has a := a.grown more closed has
  kind _ has := congrArg Node.kind (more.node_eq has)
  slots _ v label u has held :=
    ⟨u, by rwa [slot?, more.node_eq has], .inr ⟨.same u, .inl rfl⟩⟩

/-- A node that gets values where it held null, or longer arrays where it held arrays, is enriched. -/
theorem of_change {values : String → Option Value} (change : g.Change g' x) (has : g.Has x)
    (more : g.Extends g₁) (kind : (g'.node x).kind = (g.node x).kind)
    (rewrites : room → g₁.Rewrites g' x values)
    (filled : room → ∀ label c u, values label = some c → g.slot? x label = some u →
      u = .null ∨ g.Became g' u c ∧ x.holdsNames) : g.Enriches g' room where
  has := change.has
  closed := change.closed
  acyclic := change.acyclic
  kind v hv := by
    by_cases here : v.address? = x.address?
    · rw [g'.node_congr here, g.node_congr here, kind]
    · rw [change.kept v hv here]
  slots roomy v label u hv held := by
    replace rewrites := rewrites roomy
    by_cases here : v.address? = x.address?
    case neg => exact ⟨u, by rwa [slot?, change.kept v hv here], .inr ⟨.same u, .inl rfl⟩⟩
    have held_x : g.slot? x label = some u := by rwa [slot?, ← g.node_congr here]
    have names : x.holdsNames → v.holdsNames := by
      cases v <;> cases x <;> simp_all [Value.address?, Value.holdsNames]
    rw [slot?, g'.node_congr here, ← slot?, rewrites.slot]
    cases new : values label with
    | none =>
      refine ⟨u, ?_, .inr ⟨.same u, .inl rfl⟩⟩
      rwa [Option.none_or, slot?, more.node_eq has]
    | some c =>
      refine ⟨c, Option.some_or, ?_⟩
      rcases filled roomy label c u new held_x with null | ⟨became, named⟩
      · exact .inl null
      · exact .inr ⟨became, .inr (names named)⟩

end Enriches

/-! ## Sequences -/

/-- A sequence that is no shorter than another and holds all its elements but the nulls. -/
def HoldsItems (g g' : Graph) (id id' : NodeId) : Prop :=
  (g.sequence id).items.length ≤ (g'.sequence id').items.length ∧
    ∀ (n : Nat) (v : Value), (g.sequence id).items[n]? = some v → v ≠ .null →
      (g'.sequence id').items[n]? = some v

theorem Keeps.items {kind kind' : SequenceKind} {id id' : NodeId}
    (keeps : g.Keeps g' (.sequence kind id) (.sequence kind' id')) : g.HoldsItems g' id id' := by
  have element : ∀ (n : Nat) (v : Value), (g.sequence id).items[n]? = some v →
      ∃ v', (g'.sequence id').items[n]? = some v' ∧ (v = .null ∨ v' = v) := by
    intro n v held
    obtain ⟨v', held', same⟩ :=
      keeps (Numeral.text n) v (by rwa [slot?_sequence_text])
    exact ⟨v', by rwa [slot?_sequence_text] at held', same⟩
  constructor
  · by_contra short
    have bound : (g'.sequence id').items.length < (g.sequence id).items.length := by omega
    obtain ⟨v', held', -⟩ := element _ _ (List.getElem?_eq_getElem bound)
    simp at held'
  · intro n v held value
    obtain ⟨v', held', null | same⟩ := element n v held
    · exact absurd null value
    · rwa [same] at held'

/-- A sequence is followed by one of its kind that gets no shorter and loses no element. -/
theorem Became.items (e : g.Enriches g' room) (roomy : room) {kind : SequenceKind} {id : NodeId} {w : Value}
    (has : g.Has (.sequence kind id)) (became : g.Became g' (.sequence kind id) w) :
    ∃ id', w = .sequence kind id' ∧ g.HoldsItems g' id id' := by
  cases became with
  | same =>
    have keeps : g.Keeps g' (.sequence kind id) (.sequence kind id) :=
      e.keeps roomy has (by simp [Value.holdsNames])
    exact ⟨id, rfl, keeps.items⟩
  | longer _ keeps => exact ⟨_, rfl, keeps.items⟩

end FieldBinding.Graph
