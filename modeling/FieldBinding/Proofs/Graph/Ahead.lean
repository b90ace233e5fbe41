import FieldBinding.Proofs.Graph.Routes
import Mathlib.Data.List.Sort

/-!
# A graph that is ahead of another

While values wait in a queue, the document does not show them.  `Graph.Ahead` relates the graph of such a document
to one in which they have been stored already: both have the same nodes, and a place shows the last value that was
stored there, or else what it shows in the first graph.

Main results:

* `Graph.Ahead.graft`, `Graph.Ahead.graft_root`, `Graph.Ahead.pad`, `Graph.Ahead.add` — a graph stays ahead when the
  same change is made in both.
* `Graph.Ahead.store` — it gets further ahead when a value is stored in it alone.
* `Graph.Ahead.contentWithin_eq` — two graphs that are ahead by the same values show the same content.
-/

namespace FieldBinding

theorem Entries.ext_get? {α : Type} {m m' : Entries α} (h : ∀ key, m.get? key = m'.get? key) :
    m = m' := by
  have mem : ∀ e, e ∈ m.toList ↔ e ∈ m'.toList := fun e =>
    ⟨fun he => mem_of_get? (by rw [← h, get?_of_mem he]),
      fun he => mem_of_get? (by rw [h, get?_of_mem he])⟩
  have irrefl : Std.Irrefl fun a b : String × α => a.1 < b.1 := ⟨fun a => String.lt_irrefl a.1⟩
  have asymm : Std.Antisymm fun a b : String × α => a.1 < b.1 :=
    ⟨fun a b ab ba => absurd (String.lt_trans ab ba) (String.lt_irrefl a.1)⟩
  obtain ⟨entries, ascending⟩ := m
  obtain ⟨entries', ascending'⟩ := m'
  obtain rfl : entries = entries' := ascending.eq_of_mem_iff ascending' mem
  rfl

/-- A node is known from its kind and its slots. -/
theorem Node.ext_slots {n m : Node} (kind : n.kind = m.kind)
    (slots : ∀ label, n.slot? label = m.slot? label) : n = m := by
  cases n with
  | leaf => cases m <;> simp_all [Node.kind]
  | sequence a =>
    cases m <;> simp only [Node.kind, NodeKind.sequence.injEq, reduceCtorEq] at kind
    next b =>
    obtain ⟨element, items⟩ := a
    obtain ⟨element', items'⟩ := b
    have same : items = items' := by
      refine List.ext_getElem? fun i => ?_
      have left := itemAt_text 0 items i
      have right := itemAt_text 0 items' i
      rw [← left, ← right]
      exact slots _
    simp_all
  | map a =>
    cases m <;> simp only [Node.kind, NodeKind.map.injEq, reduceCtorEq] at kind
    next b =>
    obtain ⟨element, entries⟩ := a
    obtain ⟨element', entries'⟩ := b
    have same : entries = entries' := Entries.ext_get? slots
    simp_all
  | object a =>
    cases m <;> simp only [Node.kind, NodeKind.object.injEq, reduceCtorEq] at kind
    next b =>
    obtain ⟨typeName, members⟩ := a
    obtain ⟨typeName', members'⟩ := b
    have same : members = members' := Entries.ext_get? slots
    simp_all

/-! ## Stored values -/

/-- Values with the routes at which they are stored, in order. -/
abbrev Stores :=
  List (List String × Value)

/-- The value that is left at a route. -/
def Stores.at? (es : Stores) (route : List String) : Option Value :=
  es.reverse.lookup route

namespace Stores

@[simp]
theorem at?_nil (route : List String) : at? [] route = none := rfl

theorem at?_concat (es : Stores) (route : List String) (v : Value) (other : List String) :
    at? (es ++ [(route, v)]) other = if other = route then some v else es.at? other := by
  simp only [at?, List.reverse_append, List.reverse_singleton, List.singleton_append,
    List.lookup_cons]
  by_cases same : other = route
  · simp [same]
  · simp [same, beq_eq_false_iff_ne.2 same]

theorem mem_of_at? {es : Stores} {route : List String} {v : Value} (h : es.at? route = some v) :
    (route, v) ∈ es := by
  obtain ⟨before, after, eq, -⟩ := List.lookup_eq_some_iff.1 h
  rw [← List.mem_reverse, eq]
  simp

theorem at?_of_mem {es : Stores} {route : List String} {v : Value} (distinct : (es.map (·.1)).Nodup)
    (mem : (route, v) ∈ es) : es.at? route = some v := by
  induction es using List.reverseRecOn with
  | nil => cases mem
  | append_singleton es e ih =>
    rw [List.map_append, List.map_singleton, List.nodup_append] at distinct
    obtain ⟨distinct, -, apart⟩ := distinct
    rw [at?_concat]
    rcases List.mem_append.1 mem with mem | mem
    · rw [if_neg (apart _ (List.mem_map_of_mem mem) _ List.mem_cons_self), ih distinct mem]
    · rw [← List.mem_singleton.1 mem, if_pos rfl]

end Stores

namespace Graph

variable {g g₁ g' f f₁ f' : Graph} {root : Value} {es : Stores}

/-! ## Routes that can be stored at -/

/-- The place in front of the last label of a route is one that can hold a value under it. -/
def Held (g : Graph) (root : Value) (route : List String) : Prop :=
  ∃ ρ label v, route = ρ ++ [label] ∧ g.along root ρ = some v ∧
    (v.holdsNames ∨ (g.slot? v label).isSome)

namespace Held

theorem at_end {ρ : List String} {label : String} (held : g.Held root (ρ ++ [label])) :
    ∃ v, g.along root ρ = some v ∧ (v.holdsNames ∨ (g.slot? v label).isSome) := by
  obtain ⟨ρ', label', v, eq, arrives, holds⟩ := held
  obtain ⟨rfl, same⟩ := List.append_inj' eq rfl
  cases same
  exact ⟨v, arrives, holds⟩

/-- In front of every label there is a value that has children. -/
theorem front {σ τ : List String} {label : String} (held : g.Held root (σ ++ label :: τ)) :
    ∃ v, g.along root σ = some v ∧ (v.holdsNames ∨ (g.slot? v label).isSome) := by
  rcases List.eq_nil_or_concat τ with rfl | ⟨τ', last, rfl⟩
  · exact held.at_end
  · rw [List.concat_eq_append, ← List.cons_append, ← List.append_assoc] at held
    obtain ⟨v, arrives, -⟩ := held.at_end
    rw [along_append, Option.bind_eq_some_iff] at arrives
    obtain ⟨u, arrives, rest⟩ := arrives
    rw [along_cons, Option.bind_eq_some_iff] at rest
    obtain ⟨c, slot, -⟩ := rest
    exact ⟨u, arrives, .inr (by rw [slot]; rfl)⟩

theorem front_ne_null {σ τ : List String} {label : String} (held : g.Held root (σ ++ label :: τ)) :
    ∃ v, g.along root σ = some v ∧ v ≠ .null := by
  obtain ⟨v, arrives, holds⟩ := held.front
  refine ⟨v, arrives, ?_⟩
  rintro rfl
  simp [Value.holdsNames, slot?, node, Node.slot?] at holds

/-- A route can still be stored at when the document has grown. -/
theorem grown {root' : Value} {route : List String} (held : g.Held root route)
    (grows : g.Grows root g' root') : g'.Held root' route := by
  obtain ⟨ρ, label, v, rfl, arrives, holds⟩ := held
  by_cases names : v.holdsNames
  · exact ⟨ρ, label, v, rfl, grows.kept_names arrives names, .inl names⟩
  have there : (g.slot? v label).isSome := holds.resolve_left names
  have place : (g'.along root' (ρ ++ [label])).isSome := by
    refine grows.isSome ?_
    rwa [along_concat, arrives, Option.bind_some]
  rw [along_concat] at place
  cases found : g'.along root' ρ with
  | none => simp [found] at place
  | some u => exact ⟨ρ, label, u, rfl, found, .inr (by simpa [found] using place)⟩

end Held

/-! ## Graphs that are ahead -/

/-- One graph shows what another shows, with some values stored. -/
structure Ahead (es : Stores) (root : Value) (g f : Graph) : Prop where
  tree : g.Treelike root
  held : ∀ e ∈ es, g.Held root e.1
  has : ∀ v, f.Has v ↔ g.Has v
  kind : ∀ σ v, g.along root σ = some v → (f.node v).kind = (g.node v).kind
  slot : ∀ σ v label, g.along root σ = some v →
    f.slot? v label = (es.at? (σ ++ [label])).or (g.slot? v label)

theorem Rewrites.kind_eq {x v : Value} {values : String → Option Value}
    (change : g.Rewrites g' x values) : (g'.node v).kind = (g.node v).kind := by
  by_cases here : v.address? = x.address?
  · rw [g'.node_congr here, g.node_congr here, change.kind]
  · rw [change.kept v here]

theorem Rewrites.slot_eq {x v : Value} {values : String → Option Value}
    (change : g.Rewrites g' x values) (label : String) :
    g'.slot? v label =
      if v.address? = x.address? then (values label).or (g.slot? v label) else g.slot? v label := by
  split
  · next here => rw [slot?, g'.node_congr here, ← slot?, change.slot, slot?, slot?, g.node_congr here]
  · next ne => rw [slot?, slot?, change.kept v ne]

/-- A value without parts is the same in every graph. -/
theorem contentWithin_leaf (f f' : Graph) (depth : Nat) {v : Value} (leaf : v.address? = none) :
    f.contentWithin depth v = f'.contentWithin depth v := by
  cases v <;> simp_all [Value.address?, contentWithin]

/-- The content of a value is known from its node and the contents of its children. -/
theorem contentWithin_succ_congr {v : Value} {depth : Nat} (same : f.node v = g.node v)
    (children : ∀ c ∈ g.children v, f.contentWithin depth c = g.contentWithin depth c) :
    f.contentWithin (depth + 1) v = g.contentWithin (depth + 1) v := by
  cases v with
  | null => rfl
  | scalar s => rfl
  | sequence kind id =>
    have same : f.sequence id = g.sequence id := Node.sequence.inj same
    simp only [contentWithin, same]
    congr 1
    exact List.map_congr_left children
  | map id =>
    have same : f.map id = g.map id := Node.map.inj same
    simp only [contentWithin, same]
    congr 1
    exact List.map_congr_left fun e he => by rw [children e.2 (List.mem_map_of_mem he)]
  | object id =>
    have same : f.object id = g.object id := Node.object.inj same
    simp only [contentWithin, same]
    congr 1
    exact List.map_congr_left fun e he => by rw [children e.2 (List.mem_map_of_mem he)]

/-- Where no node has changed no content has. -/
theorem Closed.contentWithin_congr (closed : g.Closed) (same : ∀ v, g.Has v → f.node v = g.node v)
    (depth : Nat) {v : Value} (has : g.Has v) : f.contentWithin depth v = g.contentWithin depth v := by
  induction depth generalizing v with
  | zero => cases v <;> rfl
  | succ depth ih =>
    exact contentWithin_succ_congr (same v has) fun c child => ih (closed v c has child)

namespace Ahead

theorem refl (tree : g.Treelike root) : Ahead [] root g g :=
  ⟨tree, by simp, fun _ => .rfl, fun _ _ _ => rfl, fun _ _ _ _ => by simp⟩

/-- Nothing is stored below null. -/
theorem at?_null (held : ∀ e ∈ es, g.Held root e.1) {σ : List String}
    (h : g.along root σ = some .null) (label : String) : es.at? (σ ++ [label]) = none := by
  by_contra some
  obtain ⟨v, hv⟩ := Option.ne_none_iff_exists'.1 some
  obtain ⟨u, arrives, value⟩ := (held _ (Stores.mem_of_at? hv)).front_ne_null
  rw [h] at arrives
  exact value (Option.some.inj arrives).symm

/-- A new node gets into a slot in both graphs. -/
theorem graft (ahead : Ahead es root g f) {ρ : List String} {x c : Value} {n m : Node}
    {label : String} (arrives : g.along root ρ = some x) (node : x.address? ≠ none)
    (adds : g.Adds g₁ c n) (adds' : f.Adds f₁ c m) (put : g₁.Rewrites g' x (onlyAt label c))
    (put' : f₁.Rewrites f' x (onlyAt label c)) (kind : m.kind = n.kind)
    (continues : g.Continues root (ρ ++ [label]) n)
    (slots : ∀ other, m.slot? other = (es.at? (ρ ++ [label] ++ [other])).or (n.slot? other))
    (free : es.at? (ρ ++ [label]) = none)
    (before : g.along root (ρ ++ [label]) = none ∨ g.along root (ρ ++ [label]) = some .null ∨
      ∃ id id', g.along root (ρ ++ [label]) = some (.sequence .array id) ∧
        c = .sequence .array id') :
    Ahead es root g' f' ∧ g.Grows root g' root ∧ g'.along root (ρ ++ [label]) = some c := by
  have grafts := ahead.tree.grafts arrives node adds put continues
  have grows := grafts.grows before
  have held := fun e he => (ahead.held e he).grown grows
  have has_x := ahead.tree.has_of_along arrives
  have apart : ¬c.address? = x.address? := (adds.address_ne has_x).symm
  refine ⟨⟨grafts.treelike ahead.tree, held, ?_, ?_, ?_⟩, grows, grafts.place⟩
  · intro v
    rw [put.has, put'.has, adds.has, adds'.has, ahead.has]
  · intro σ v h
    by_cases here : σ = ρ ++ [label]
    · obtain rfl : v = c := Option.some.inj (h.symm.trans (here ▸ grafts.place))
      rw [put.kind_eq, put'.kind_eq, adds.node, adds'.node, kind]
    · by_cases null : v = .null
      · subst null
        rfl
      have old := grafts.old h here null
      have has := ahead.tree.has_of_along old
      rw [put.kind_eq, put'.kind_eq, adds.kept v has, adds'.kept v ((ahead.has v).2 has),
        ahead.kind σ v old]
  · intro σ v other h
    by_cases here : σ = ρ ++ [label]
    · subst here
      obtain rfl : v = c := Option.some.inj (h.symm.trans grafts.place)
      rw [put.slot_eq, put'.slot_eq, if_neg apart, if_neg apart, slot?, slot?, adds.node, adds'.node,
        slots]
    · by_cases null : v = .null
      · subst null
        rw [at?_null held h]
        rfl
      have old := grafts.old h here null
      have has := ahead.tree.has_of_along old
      have same := ahead.slot σ v other old
      rw [slot?, slot?] at same
      rw [put.slot_eq, put'.slot_eq, slot?, slot?, adds.kept v has,
        adds'.kept v ((ahead.has v).2 has)]
      split
      · next at_x =>
        obtain rfl := ahead.tree.unshared σ ρ v x old arrives at_x (at_x ▸ node)
        unfold onlyAt
        split
        · next at_label =>
          subst at_label
          rw [free, Option.some_or, Option.some_or, Option.none_or]
        · rw [Option.none_or, Option.none_or, same]
      · exact same

/-- A new node becomes the root of both. -/
theorem graft_root (ahead : Ahead es root g f) {c : Value} {n m : Node} (adds : g.Adds g' c n)
    (adds' : f.Adds f' c m) (kind : m.kind = n.kind) (continues : g.Continues root [] n)
    (slots : ∀ other, m.slot? other = (es.at? [other]).or (n.slot? other))
    (before : root = .null ∨ ∃ id id', root = .sequence .array id ∧ c = .sequence .array id') :
    Ahead es c g' f' ∧ g.Grows root g' c := by
  have grafts := ahead.tree.grafts_root adds continues
  have grows : g.Grows root g' c := by
    refine grafts.grows (.inr ?_)
    rcases before with rfl | ⟨id, id', rfl, rfl⟩
    · exact .inl rfl
    · exact .inr ⟨id, id', rfl, rfl⟩
  have held := fun e he => (ahead.held e he).grown grows
  refine ⟨⟨grafts.treelike ahead.tree, held, ?_, ?_, ?_⟩, grows⟩
  · intro v
    rw [adds.has, adds'.has, ahead.has]
  · intro σ v h
    by_cases here : σ = []
    · subst here
      obtain rfl : c = v := Option.some.inj h
      rw [adds.node, adds'.node, kind]
    · by_cases null : v = .null
      · subst null
        rfl
      have old := grafts.old h here null
      have has := ahead.tree.has_of_along old
      rw [adds.kept v has, adds'.kept v ((ahead.has v).2 has), ahead.kind σ v old]
  · intro σ v other h
    by_cases here : σ = []
    · subst here
      obtain rfl : c = v := Option.some.inj h
      rw [slot?, slot?, adds.node, adds'.node, slots, List.nil_append]
    · by_cases null : v = .null
      · subst null
        rw [at?_null held h]
        rfl
      have old := grafts.old h here null
      have has := ahead.tree.has_of_along old
      have same := ahead.slot σ v other old
      rw [slot?, slot?] at same
      rw [slot?, slot?, adds.kept v has, adds'.kept v ((ahead.has v).2 has), same]

/-- A sequence is filled up in both. -/
theorem pad (ahead : Ahead es root g f) {π : List String} {x : Value}
    {values : String → Option Value} (arrives : g.along root π = some x) (node : x.address? ≠ none)
    (names : ¬x.holdsNames) (fill : g.Rewrites g' x values) (fill' : f.Rewrites f' x values)
    (nulls : ∀ label d, values label = some d → d = .null ∧ g.slot? x label = none) :
    Ahead es root g' f' ∧ g.Grows root g' root := by
  have pads := ahead.tree.pads arrives node fill nulls
  have grows := pads.grows
  have held := fun e he => (ahead.held e he).grown grows
  refine ⟨⟨pads.treelike ahead.tree, held, ?_, ?_, ?_⟩, grows⟩
  · intro v
    rw [fill.has, fill'.has, ahead.has]
  · intro σ v h
    by_cases null : v = .null
    · subst null
      rfl
    rw [fill.kind_eq, fill'.kind_eq, ahead.kind σ v (pads.old h null)]
  · intro σ v other h
    by_cases null : v = .null
    · subst null
      rw [at?_null held h]
      rfl
    have old := pads.old h null
    rw [fill.slot_eq, fill'.slot_eq, ahead.slot σ v other old]
    split
    · next at_x =>
      obtain rfl := ahead.tree.unshared σ π v x old arrives at_x (at_x ▸ node)
      cases new : values other with
      | none => rw [Option.none_or, Option.none_or]
      | some d =>
        -- nothing is stored in a slot that was not there
        have free : es.at? (σ ++ [other]) = none := by
          by_contra some
          obtain ⟨e, he⟩ := Option.ne_none_iff_exists'.1 some
          obtain ⟨u, found, holds⟩ := (ahead.held _ (Stores.mem_of_at? he)).at_end
          rw [arrives, Option.some.injEq] at found
          subst found
          simp [names, (nulls other d new).2] at holds
        rw [free, Option.none_or, Option.none_or]
    · rfl

/-- A node is added to both that nobody holds. -/
theorem add (ahead : Ahead es root g f) {c : Value} {n m : Node} (adds : g.Adds g' c n)
    (adds' : f.Adds f' c m) (children : ∀ label d, n.slot? label = some d → g.Has d) :
    Ahead es root g' f' ∧ g.Grows root g' root := by
  have pads := ahead.tree.pads_of_adds adds children
  have grows := pads.grows
  have held := fun e he => (ahead.held e he).grown grows
  refine ⟨⟨pads.treelike ahead.tree, held, ?_, ?_, ?_⟩, grows⟩
  · intro v
    rw [adds.has, adds'.has, ahead.has]
  · intro σ v h
    by_cases null : v = .null
    · subst null
      rfl
    have old := pads.old h null
    have has := ahead.tree.has_of_along old
    rw [adds.kept v has, adds'.kept v ((ahead.has v).2 has), ahead.kind σ v old]
  · intro σ v other h
    by_cases null : v = .null
    · subst null
      rw [at?_null held h]
      rfl
    have old := pads.old h null
    have has := ahead.tree.has_of_along old
    have same := ahead.slot σ v other old
    rw [slot?, slot?] at same
    rw [slot?, slot?, adds.kept v has, adds'.kept v ((ahead.has v).2 has), same]

/-- A value is stored in the graph that is ahead. -/
theorem store (ahead : Ahead es root g f) {ρ : List String} {x v : Value} {label : String}
    (arrives : g.along root ρ = some x) (node : x.address? ≠ none)
    (holds : x.holdsNames ∨ (g.slot? x label).isSome) (put : f.Rewrites f' x (onlyAt label v)) :
    Ahead (es ++ [(ρ ++ [label], v)]) root g f' where
  tree := ahead.tree
  held e he := by
    rcases List.mem_append.1 he with he | he
    · exact ahead.held e he
    · rw [List.mem_singleton.1 he]
      exact ⟨ρ, label, x, rfl, arrives, holds⟩
  has u := by rw [put.has, ahead.has]
  kind σ u h := by rw [put.kind_eq, ahead.kind σ u h]
  slot σ u other h := by
    rw [put.slot_eq, ahead.slot σ u other h, Stores.at?_concat]
    by_cases here : u.address? = x.address?
    · obtain rfl := ahead.tree.unshared σ ρ u x h arrives here (here ▸ node)
      rw [if_pos here, onlyAt]
      by_cases same : other = label
      · subst same
        rw [if_pos rfl, if_pos rfl, Option.some_or, Option.some_or]
      · rw [if_neg same, if_neg (by simpa using same), Option.none_or]
    · have elsewhere : σ ++ [other] ≠ ρ ++ [label] := by
        intro eq
        obtain ⟨rfl, -⟩ := List.append_inj' eq rfl
        rw [arrives, Option.some.injEq] at h
        exact here (h ▸ rfl)
      rw [if_neg here, if_neg elsewhere]

/-- On the way to a route nothing has changed, if nothing is stored there. -/
theorem along_front (ahead : Ahead es root g f) {ρ σ τ : List String} (front : σ ++ τ = ρ) (more : τ ≠ [])
    (clear : ∀ q τ, τ ≠ [] → q ++ τ = ρ → es.at? q = none) : f.along root σ = g.along root σ := by
  refine along_congr fun α label β u eq found => ?_
  have before : es.at? (α ++ [label]) = none :=
    clear (α ++ [label]) (β ++ τ) (List.append_ne_nil_of_right_ne_nil _ more) (by simp [← front, eq])
  rw [ahead.slot α u label found, before, Option.none_or]

/-- A route leads to the value that is stored there. -/
theorem along_stored (ahead : Ahead es root g f) {ρ : List String} {v : Value} (stored : es.at? ρ = some v)
    (clear : ∀ q τ, τ ≠ [] → q ++ τ = ρ → es.at? q = none) : f.along root ρ = some v := by
  obtain ⟨σ, label, x, rfl, arrives, -⟩ := ahead.held _ (Stores.mem_of_at? stored)
  rw [along_concat, ahead.along_front rfl (by simp) clear, arrives, Option.bind_some,
    ahead.slot σ x label arrives, stored, Option.some_or]

/-- A node is the same in two graphs that are ahead by the same values. -/
theorem node_eq (a : Ahead es root g f) (b : Ahead es root g f') {σ : List String} {v : Value}
    (h : g.along root σ = some v) : f.node v = f'.node v := by
  refine Node.ext_slots (by rw [a.kind σ v h, b.kind σ v h]) fun label => ?_
  have left := a.slot σ v label h
  rw [← b.slot σ v label h] at left
  exact left

/-- Two graphs that are ahead by the same values without parts show the same content. -/
theorem contentWithin_eq (a : Ahead es root g f) (b : Ahead es root g f')
    (leaves : ∀ e ∈ es, e.2.address? = none) (depth : Nat) {v : Value}
    (h : v.address? = none ∨ ∃ σ, g.along root σ = some v) :
    f.contentWithin depth v = f'.contentWithin depth v := by
  induction depth generalizing v with
  | zero => cases v <;> rfl
  | succ depth ih =>
    rcases h with leaf | ⟨σ, arrives⟩
    · exact contentWithin_leaf f f' _ leaf
    refine contentWithin_succ_congr (a.node_eq b arrives) fun c child => ?_
    obtain ⟨label, slot⟩ := (f'.mem_children_iff v c).1 child
    rw [b.slot σ v label arrives, Option.or_eq_some_iff] at slot
    refine ih ?_
    rcases slot with stored | ⟨-, slot⟩
    · exact .inl (leaves _ (Stores.mem_of_at? stored))
    · exact .inr ⟨σ ++ [label], by rw [along_concat, arrives, Option.bind_some, slot]⟩

end Ahead

end Graph

end FieldBinding
