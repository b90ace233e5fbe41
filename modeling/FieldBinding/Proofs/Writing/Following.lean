import FieldBinding.Proofs.Writing.Parking

/-!
# The way to an owner, while a queue is stored

When a queue is stored, values come to places of the document, and an owner that was prepared for a later entry may be
in no place any more.  `Writer.Follows` says of a place that the way there is what it was: it leads through the same
nodes, but for arrays that have been replaced by longer ones.  It stays so as long as no value is stored on the way.

Main results:

* `Registry.Trail.alike` — a trail needs no more than places on its way that are alike.
* `Writer.Follows.rewrite` — what happens to a node beside the way.
* `Writer.Follows.regrown_child`, `Writer.Follows.regrown_root` — what becomes of an array on the way.
-/

namespace FieldBinding

open FieldBinding.Graph

variable {g f f₁ f' : Graph} {root root' root₁ : Value} {ρ κ : List String} {queue : List PendingWrite}

/-! ## Trails without types -/

/-- A value is another one, or an array instead of an array. -/
def Graph.Alike (v v' : Value) : Prop :=
  v' = v ∨ ∃ id id', v = .sequence .array id ∧ v' = .sequence .array id'

namespace Registry

variable {v v' w : Value} {s : Segment}

theorem ne_null_of_alike (alike : Alike v v') (value : v ≠ .null) : v' ≠ .null := by
  rcases alike with rfl | ⟨id, id', -, rfl⟩
  · exact value
  · exact Value.noConfusion

theorem fits_of_alike (alike : Alike v v') {slot : Slot} (fit : fits v slot) : fits v' slot := by
  rcases alike with rfl | ⟨id, id', rfl, rfl⟩
  · exact fit
  · cases slot with
    | index => rfl
    | key => cases fit

/-- A name leads to the value in its slot. -/
theorem yieldAt_empty_iff {v c : Value} {s : Segment} (value : c ≠ .null) :
    empty.yieldAt g v s.name = .ok (.held c) ↔
      g.along v s.names = some c ∧ (s.name ≠ "" → v.holdsNames) := by
  rw [yieldAt_empty]
  by_cases named : s.name = ""
  · simp [named, Segment.names_of_eq]
  by_cases names : v.holdsNames
  · simp only [named, names, if_false, if_true, Segment.names_of_ne named, along_cons, along_nil,
      Option.bind_fun_some, Except.ok.injEq, Yield.held.injEq, ne_eq, not_false_eq_true, imp_self,
      and_true]
    cases g.slot? v s.name with
    | none => simpa using value.symm
    | some u => simp
  · simp [named, names]

/-- A step of a trail needs no more than places on its way that are alike. -/
theorem Leads.alike (leads : empty.Leads g v s w) (value : w ≠ .null)
    (way : ∀ π u, π <+: s.labels → g.along v π = some u → ∃ u', f.along v' π = some u' ∧ Alike u u') :
    ∃ w', g.along v s.labels = some w ∧ f.along v' s.labels = some w' ∧ empty.Leads f v' s w' := by
  obtain ⟨notNull, single, c, arrives, place⟩ := leads
  obtain ⟨_, here, alike⟩ := way [] v List.nil_prefix rfl
  obtain rfl := Option.some.inj here
  have value' := ne_null_of_alike alike notNull
  have child : c ≠ .null → ∃ c', Alike c c' ∧ g.along v s.names = some c ∧ f.along v' s.names = some c' ∧
      empty.yieldAt f v' s.name = .ok (.held c') := by
    intro c_value
    obtain ⟨found, names⟩ := (yieldAt_empty_iff c_value).1 arrives
    obtain ⟨c', found', alike_c⟩ := way s.names c (List.prefix_append _ _) found
    refine ⟨c', alike_c, found, found', (yieldAt_empty_iff (ne_null_of_alike alike_c c_value)).2
      ⟨found', fun named => ?_⟩⟩
    rcases alike with rfl | ⟨id, id', rfl, -⟩
    · exact names named
    · cases names named
  by_cases collection : s.isCollection
  case neg =>
    have plain : s.isCollection = false := by simpa using collection
    obtain rfl : w = c := by simpa [selected, plain] using place.symm
    obtain ⟨c', -, found, found', arrives'⟩ := child value
    have labels : s.labels = s.names := by simp [Segment.labels, Writer.slot?_eq_none plain]
    rw [labels]
    exact ⟨c', found, found', Writer.leads_of_child value' plain arrives'⟩
  obtain ⟨slot, hslot⟩ := Writer.slot?_of_single collection single
  unfold selected at place
  by_cases places : c.isCollection
  case neg => simp [collection, places] at place
  simp only [collection, places, hslot, Bool.not_true, Bool.false_eq_true, if_false,
    Option.some.injEq, List.cons.injEq, and_true] at place
  have c_value : c ≠ .null := by
    rintro rfl
    cases places
  obtain ⟨c', alike_c, found, found', arrives'⟩ := child c_value
  have labels : s.labels = s.names ++ [Graph.label slot] := by simp [Segment.labels, hslot]
  have fit : fits c slot := by
    by_contra misfit
    rw [elementAt_eq, if_neg misfit] at place
    exact value place.symm
  have held : g.along v s.labels = some w := by
    rw [labels, along_concat, found, Option.bind_some, slot?_of_elementAt (place.symm ▸ value), place]
  obtain ⟨w', held', alike_w⟩ := way s.labels w List.prefix_rfl held
  refine ⟨w', held, held', Writer.leads_of_elementAt value' collection single hslot arrives' ?_
    (ne_null_of_alike alike_w value)⟩
  rw [labels, along_concat, found', Option.bind_some] at held'
  rw [elementAt_eq, if_pos (fits_of_alike alike_c fit), held', Option.getD_some]

/-- So does a trail. -/
theorem Trail.alike {segments : List Segment} (trail : empty.Trail g v segments w) (value : w ≠ .null)
    (way : ∀ π u, π <+: segments.flatMap Segment.labels → g.along v π = some u →
      ∃ u', f.along v' π = some u' ∧ Alike u u') :
    ∃ w', g.along v (segments.flatMap Segment.labels) = some w ∧
      f.along v' (segments.flatMap Segment.labels) = some w' ∧ empty.Trail f v' segments w' := by
  induction trail generalizing v' with
  | here v => exact ⟨v', rfl, rfl, .here v'⟩
  | @step v w u s rest first others ih =>
    obtain ⟨w', found, found', first'⟩ := first.alike (others.start_ne_null value) fun π u front =>
      way π u (front.trans (List.prefix_append _ _))
    obtain ⟨u', held, held', others'⟩ := ih value fun π u front arrives => by
      obtain ⟨u', arrives', alike⟩ := way (s.labels ++ π) u (by simpa using front)
        (by rw [along_of_along found, arrives])
      exact ⟨u', by rwa [along_of_along found'] at arrives', alike⟩
    refine ⟨u', ?_, ?_, .step first' others'⟩
    · rw [List.flatMap_cons, along_of_along found, held]
    · rw [List.flatMap_cons, along_of_along found', held']

theorem Trail.along {segments : List Segment} (trail : empty.Trail g v segments w) (value : w ≠ .null) :
    g.along v (segments.flatMap Segment.labels) = some w := by
  obtain ⟨_, found, -, -⟩ := trail.alike value fun π u _ arrives => ⟨u, arrives, .inl rfl⟩
  exact found

end Registry

/-! ## The way to a place -/

namespace Graph

/-- Which slots a value has. -/
def spans (f : Graph) (v : Value) (label : String) : Bool :=
  (f.slot? v label).isSome

/-- The node of a value is on the way to a place in one place at most, and there it goes by this value. -/
def Sited (f : Graph) (root : Value) (ρ κ : List String) (v : Value) : Prop :=
  ∀ σ u, σ <+: ρ → f.along root σ = some u → u.address? = v.address? → v.address? ≠ none → σ = κ ∧ u = v

/-- The node of a value is not on the way to a place. -/
def Aside (f : Graph) (root : Value) (ρ : List String) (v : Value) : Prop :=
  ∀ σ u, σ <+: ρ → f.along root σ = some u → u.address? = v.address? → v.address? = none

theorem Aside.of_leaf {v : Value} (leaf : v.address? = none) : f.Aside root ρ v :=
  fun _ _ _ _ _ => leaf

theorem Aside.sited {v : Value} (aside : f.Aside root ρ v) (κ : List String) : f.Sited root ρ κ v :=
  fun σ u front found same node => absurd (aside σ u front found same) node

end Graph

namespace Writer

/-- What a rule says of the array at the end of a way, and of its slots. -/
abbrev ArrayRule :=
  Value → (String → Bool) → Prop

/-- A document is followed by another on the way to a place: each place on the way has the value that it had, or an
array instead of an array, and no node is met twice.  The children of the owners in a queue are on the way in their own
places only.  An array in the place itself obeys a rule. -/
structure Follows (rule : ArrayRule) (queue : List PendingWrite) (ρ : List String) (g : Graph) (root : Value)
    (f : Graph) (root' : Value) : Prop where
  way : ∀ π, π <+: ρ → ∃ u, f.along root' π = some u ∧ (g.along root π = some u ∨
    ∃ id id', g.along root π = some (.sequence .array id) ∧ u = .sequence .array id' ∧ ¬g.Has u)
  apart : ∀ π σ u v, π <+: ρ → σ <+: ρ → f.along root' π = some u → f.along root' σ = some v →
    u.address? = v.address? → u.address? ≠ none → π = σ
  lodged : ∀ e ∈ queue, ∀ owner c, e.owner = some owner → e.field.path.last.name ≠ "" →
    f.slot? owner e.field.path.last.name = some c →
    f.Sited root' ρ (e.field.path.ownerRoute ++ [e.field.path.last.name]) c
  array : ∀ id, f.along root' ρ = some (.sequence .array id) →
    rule (.sequence .array id) (f.spans (.sequence .array id))

namespace Follows

variable {rule : ArrayRule}

theorem start (tree : g.Treelike root) {v : Value} (arrives : g.along root ρ = some v)
    (owners : ∀ e ∈ queue, ∀ owner, e.owner = some owner → g.Housed root e.field.path.ownerRoute owner)
    (array : ∀ id, v = .sequence .array id → rule v (g.spans v)) : Follows rule queue ρ g root g root where
  way := by
    rintro π ⟨σ, rfl⟩
    rw [along_append, Option.bind_eq_some_iff] at arrives
    obtain ⟨u, found, -⟩ := arrives
    exact ⟨u, found, .inl found⟩
  apart π σ u v _ _ hu hv := tree.unshared π σ u v hu hv
  lodged e he owner c howner _ slot σ u _ := ((owners e he owner howner).children _ c slot).only σ u
  array id found := by
    obtain rfl := Option.some.inj (arrives.symm.trans found)
    exact array id rfl

section

variable (follows : Follows rule queue ρ g root f root')

include follows

/-- A node on the way was in its place before, or is new. -/
theorem before {σ : List String} {u : Value} (front : σ <+: ρ) (found : f.along root' σ = some u) (has : g.Has u) :
    g.along root σ = some u := by
  obtain ⟨u', found', same | ⟨_, _, -, -, new⟩⟩ := follows.way σ front
  · exact Option.some.inj (found'.symm.trans found) ▸ same
  · exact absurd has (Option.some.inj (found'.symm.trans found) ▸ new)

theorem sited {v : Value} (homed : g.Homed root κ v) : f.Sited root' ρ κ v := by
  intro σ u front found same node
  exact homed.only σ u (follows.before front found ((has_congr g same).2 homed.has)) same node

theorem aside {v : Value} (has : g.Has v) (outside : g.Outside root v) : f.Aside root' ρ v := by
  intro σ u front found same
  exact outside σ u (follows.before front found ((has_congr g same).2 has)) same

/-- A value with names stays in its place on the way. -/
theorem stays {v : Value} (front : κ <+: ρ) (arrives : g.along root κ = some v) (names : v.holdsNames) :
    f.along root' κ = some v := by
  obtain ⟨u, found, same | ⟨_, _, array, -, -⟩⟩ := follows.way κ front
  · rw [found, ← same, arrives]
  · rw [Option.some.inj (arrives.symm.trans array)] at names
    cases names

theorem sited_root : f.Sited root' ρ [] root' := by
  intro σ u front found same node
  obtain rfl := follows.apart σ [] u root' front List.nil_prefix found rfl same (same ▸ node)
  exact ⟨rfl, (Option.some.inj found).symm⟩

/-! ## Changes beside the way -/

/-- A node may change in slots that are not on the way, if nothing on the way is stored in them. -/
theorem rewrite {x : Value} {sets : String → Option Value} (sited : f.Sited root' ρ κ x) (node : x.address? ≠ none)
    (put : f.Rewrites f' x sets) (values : ∀ label c, sets label = some c → f.Aside root' ρ c)
    (clear : ∀ label, f.along root' κ = some x → κ ++ [label] <+: ρ → sets label = none)
    (inside : ∀ id, x = .sequence .array id → ∀ label, (sets label).isSome → (f.slot? x label).isSome) :
    Follows rule queue ρ g root f' root' ∧ ∀ π, π <+: ρ → f'.along root' π = f.along root' π := by
  have trail : ∀ π, π <+: ρ → f'.along root' π = f.along root' π := by
    intro π front
    refine along_congr fun α label β u split arrives => ?_
    have front' : α ++ [label] <+: ρ := .trans ⟨β, by simp [split]⟩ front
    rw [put.slot_eq]
    split
    · next here =>
      obtain ⟨rfl, rfl⟩ := sited α u ((List.prefix_append _ _).trans front') arrives here node
      rw [clear label arrives front', Option.none_or]
    · rfl
  have kept : ∀ κ v, f.Sited root' ρ κ v → f'.Sited root' ρ κ v := fun κ v sited σ u front found =>
    sited σ u front (trail σ front ▸ found)
  refine ⟨⟨fun π front => ?_, fun π σ u v hπ hσ hu hv => ?_, fun e he owner c howner named slot => ?_,
      fun id found => ?_⟩,
    trail⟩
  · rw [trail π front]
    exact follows.way π front
  · exact follows.apart π σ u v hπ hσ (trail π hπ ▸ hu) (trail σ hσ ▸ hv)
  · refine kept _ _ ?_
    rw [put.slot_eq] at slot
    split at slot
    case isFalse => exact follows.lodged e he owner c howner named slot
    cases stored : sets e.field.path.last.name with
    | none =>
      rw [stored, Option.none_or] at slot
      exact follows.lodged e he owner c howner named slot
    | some d =>
      rw [stored, Option.some_or, Option.some.injEq] at slot
      exact slot ▸ (values _ d stored).sited _
  · rw [trail ρ List.prefix_rfl] at found
    have obeys := follows.array id found
    suffices f'.spans (.sequence .array id) = f.spans (.sequence .array id) by rwa [this]
    funext label
    rw [spans, spans, put.slot_eq]
    split
    · next here =>
      obtain ⟨-, array⟩ := sited ρ _ List.prefix_rfl found here node
      cases stored : sets label with
      | none => rfl
      | some d =>
        have there := inside id array.symm label (by rw [stored]; rfl)
        rw [Option.some_or, array, there]
        rfl
    · rfl

/-- The way does not go through a slot that a sequence is filled up with. -/
theorem clear_of_padded {kind : SequenceKind} {id : NodeId} {n : Nat} (label : String)
    (arrives : f.along root' κ = some (.sequence kind id)) (front : κ ++ [label] <+: ρ) :
    paddedAt (f.sequence id).items.length n label = none := by
  obtain ⟨u, found, -⟩ := follows.way _ front
  rw [along_concat, arrives, Option.bind_some] at found
  cases new : paddedAt (f.sequence id).items.length n label with
  | none => rfl
  | some d => cases (itemAt_eq_none_of_paddedAt new).symm.trans found

/-! ## A longer array on the way -/

omit follows in
/-- A longer array has the slots that the array had. -/
theorem slot?_longer_of_slot? {id : NodeId} {n : Nat} {label : String} {u : Value}
    (room : HasRoom (f.sequence id).items n) (slot : f.slot? (.sequence .array id) label = some u) :
    (Node.sequence (longer f id n)).slot? label = some u := by
  rw [slot?_longer room .array, slot]
  cases new : paddedAt (f.sequence id).items.length n label with
  | none => rfl
  | some d => cases (itemAt_eq_none_of_paddedAt new).symm.trans slot

/-- A longer array in the place of another one, if the other one was on the way, leaves the way as it is. -/
theorem way_regrown {id id' : NodeId} {P : Prop}
    (top : root₁ = root' ∨ κ = [] ∧ P ∧ root' = .sequence .array id ∧ root₁ = .sequence .array id')
    (slots : ∀ τ v label u, τ ++ [label] <+: ρ → f.along root' τ = some v → f.slot? v label = some u →
      f'.slot? v label = some u ∨
        (τ ++ [label] = κ ∧ P ∧ u = .sequence .array id ∧ f'.slot? v label = some (.sequence .array id')))
    (below : ∀ label u, f.slot? (.sequence .array id) label = some u → f'.slot? (.sequence .array id') label = some u)
    (π : List String) (front : π <+: ρ) : f'.along root₁ π = f.along root' π ∨
      (π = κ ∧ P ∧ f.along root' κ = some (.sequence .array id) ∧ f'.along root₁ κ = some (.sequence .array id')) := by
  induction π using List.reverseRecOn with
  | nil =>
    rcases top with rfl | ⟨rfl, here, rfl, rfl⟩
    · exact .inl rfl
    · exact .inr ⟨rfl, here, rfl, rfl⟩
  | append_singleton τ label ih =>
    obtain ⟨u, found, -⟩ := follows.way _ front
    have found' := found
    rw [along_concat, Option.bind_eq_some_iff] at found'
    obtain ⟨v, arrives, slot⟩ := found'
    rcases ih ((List.prefix_append _ _).trans front) with kept | ⟨rfl, -, array, longer⟩
    · rw [found, along_concat, kept, arrives, Option.bind_some]
      refine (slots τ v label u front arrives slot).imp_right ?_
      rintro ⟨rfl, here, rfl, new⟩
      exact ⟨rfl, here, found, by rw [along_concat, kept, arrives, Option.bind_some, new]⟩
    · obtain rfl := Option.some.inj (array.symm.trans arrives)
      rw [found, along_concat, longer, Option.bind_some]
      exact .inl (below label u slot)

/-- An array may become a longer one in its place. -/
theorem regrown {id id' : NodeId} {P : Prop} (has : ∀ v, g.Has v → f.Has v) (closed : f.Closed) (has_root : f.Has root')
    (new : ¬f.Has (.sequence .array id'))
    (trail : ∀ π, π <+: ρ → f'.along root₁ π = f.along root' π ∨
      (π = κ ∧ P ∧ f.along root' κ = some (.sequence .array id) ∧ f'.along root₁ κ = some (.sequence .array id')))
    (owners : ∀ e ∈ queue, ∀ owner, e.owner = some owner → f.Has owner)
    (slots : ∀ e ∈ queue, ∀ owner c, e.owner = some owner → e.field.path.last.name ≠ "" →
      f'.slot? owner e.field.path.last.name = some c → f.slot? owner e.field.path.last.name = some c ∨
        (c = .sequence .array id' ∧ (P → κ <+: ρ → e.field.path.ownerRoute ++ [e.field.path.last.name] = κ)))
    (spans : ∀ i, f.Has (.sequence .array i) → f'.spans (.sequence .array i) = f.spans (.sequence .array i))
    (obeys : P → ρ = κ → rule (.sequence .array id) (f.spans (.sequence .array id)) →
      rule (.sequence .array id') (f'.spans (.sequence .array id'))) :
    Follows rule queue ρ g root f' root₁ := by
  have has_of : ∀ {σ u}, f.along root' σ = some u → f.Has u := closed.has_of_along has_root
  have fresh : ∀ {u : Value}, f.Has u → u.address? ≠ (Value.sequence .array id').address? := fun has same =>
    new ((has_congr f same).1 has)
  refine ⟨fun π front => ?_, fun π σ u v hπ hσ hu hv same node => ?_, fun e he owner c howner named slot => ?_,
    fun i found => ?_⟩
  · rcases trail π front with kept | ⟨rfl, -, array, longer⟩
    · rw [kept]
      exact follows.way π front
    obtain ⟨u, found, before⟩ := follows.way π front
    obtain rfl := Option.some.inj (array.symm.trans found)
    refine ⟨_, longer, .inr ?_⟩
    rcases before with before | ⟨i, _, before, -⟩
    · exact ⟨id, id', before, rfl, fun h => new (has _ h)⟩
    · exact ⟨i, id', before, rfl, fun h => new (has _ h)⟩
  · rcases trail π hπ with kept | ⟨rfl, -, -, longer⟩ <;> rcases trail σ hσ with kept' | ⟨rfl, -, -, longer'⟩
    · exact follows.apart π σ u v hπ hσ (kept ▸ hu) (kept' ▸ hv) same node
    · obtain rfl := Option.some.inj (longer'.symm.trans hv)
      exact absurd same (fresh (has_of (kept ▸ hu)))
    · obtain rfl := Option.some.inj (longer.symm.trans hu)
      exact absurd same.symm (fresh (has_of (kept' ▸ hv)))
    · rfl
  · intro σ u front found same node
    rcases slots e he owner c howner named slot with before | ⟨rfl, place⟩
    · rcases trail σ front with kept | ⟨rfl, -, -, longer⟩
      · exact follows.lodged e he owner c howner named before σ u front (kept ▸ found) same node
      · obtain rfl := Option.some.inj (longer.symm.trans found)
        exact absurd same.symm (fresh (closed.has_of_slot? (owners e he owner howner) before))
    · rcases trail σ front with kept | ⟨rfl, here, -, longer⟩
      · exact absurd same (fresh (has_of (kept ▸ found)))
      · exact ⟨(place here front).symm, Option.some.inj (found.symm.trans longer)⟩
  · rcases trail ρ List.prefix_rfl with kept | ⟨rfl, here, array, longer⟩
    · rw [kept] at found
      rw [spans i (has_of found)]
      exact follows.array i found
    · obtain ⟨-, rfl⟩ := Value.sequence.inj (Option.some.inj (found.symm.trans longer))
      exact obeys here rfl (follows.array id array)

/-- An array that is a child may become a longer one. -/
theorem regrown_child {owner : Value} {name : String} {id id' : NodeId} {n : Nat} (has : ∀ v, g.Has v → f.Has v)
    (closed : f.Closed) (has_root : f.Has root') (sited : f.Sited root' ρ κ owner) (names : owner.holdsNames)
    (slot : f.slot? owner name = some (.sequence .array id)) (room : HasRoom (f.sequence id).items n)
    (adds : f.Adds f₁ (.sequence .array id') (.sequence (longer f id n)))
    (put : f₁.Rewrites f' owner (onlyAt name (.sequence .array id')))
    (owners : ∀ e ∈ queue, ∀ owner, e.owner = some owner → g.Housed root e.field.path.ownerRoute owner)
    (obeys : f.along root' κ = some owner → ρ = κ ++ [name] →
      rule (.sequence .array id) (f.spans (.sequence .array id)) →
        rule (.sequence .array id') (f'.spans (.sequence .array id'))) :
    Follows rule queue ρ g root f' root' := by
  have node := Value.address_of_holdsNames names
  have kept : ∀ v label, f.Has v → f₁.slot? v label = f.slot? v label := fun v label has => by
    rw [slot?, slot?, adds.kept v has]
  -- a slot that gets the longer array is that of the owner
  have slots : ∀ v label, f.Has v → f'.slot? v label = f.slot? v label ∨
      (v = owner ∧ label = name ∧ f'.slot? v label = some (.sequence .array id')) := by
    intro v label has_v
    rw [put.slot_eq, kept v label has_v]
    split
    case isFalse => exact .inl rfl
    next here =>
    obtain rfl := eq_of_holdsNames names here.symm
    unfold onlyAt
    split
    · next same => exact .inr ⟨rfl, same, rfl⟩
    · exact .inl Option.none_or
  refine follows.regrown (κ := κ ++ [name]) (P := f.along root' κ = some owner) has closed has_root adds.new
    (follows.way_regrown (.inl rfl) (fun τ v label u front arrives held => ?_) fun label u held => ?_)
    (fun e he o howner => has o (owners e he o howner).home.has)
    (fun e he o c howner named held => ?_) (fun i has_i => ?_) fun here same => obeys here same
  · rcases slots v label (closed.has_of_along has_root arrives) with same | ⟨rfl, rfl, new⟩
    · exact .inl (same.trans held)
    · obtain ⟨rfl, -⟩ := sited τ v ((List.prefix_append _ _).trans front) arrives rfl node
      exact .inr ⟨rfl, arrives, Option.some.inj (held.symm.trans slot), new⟩
  · rw [slot?, put.kept _ (address_ne_of_holdsNames names .array id').symm, adds.node]
    exact slot?_longer_of_slot? room held
  · rcases slots o e.field.path.last.name (has o (owners e he o howner).home.has) with same | ⟨rfl, same, new⟩
    · exact .inl (same.symm.trans held)
    refine .inr ⟨Option.some.inj (held.symm.trans new), fun here front => ?_⟩
    obtain ⟨rfl, -⟩ := follows.sited (owners e he o howner).home κ o ((List.prefix_append _ _).trans front) here rfl
      node
    rw [same]
  · funext label
    rw [spans, spans, put.slot_eq, if_neg (address_ne_of_holdsNames names .array i).symm, kept _ label has_i]

/-- An array that is the root may become a longer one. -/
theorem regrown_root {id id' : NodeId} {n : Nat} (has : ∀ v, g.Has v → f.Has v) (closed : f.Closed)
    (has_root : f.Has root') (array : root' = .sequence .array id) (room : HasRoom (f.sequence id).items n)
    (adds : f.Adds f' (.sequence .array id') (.sequence (longer f id n)))
    (owners : ∀ e ∈ queue, ∀ owner, e.owner = some owner → g.Housed root e.field.path.ownerRoute owner)
    (obeys : ρ = [] → rule (.sequence .array id) (f.spans (.sequence .array id)) →
        rule (.sequence .array id') (f'.spans (.sequence .array id'))) :
    Follows rule queue ρ g root f' (.sequence .array id') := by
  have kept : ∀ v label, f.Has v → f'.slot? v label = f.slot? v label := fun v label has => by
    rw [slot?, slot?, adds.kept v has]
  refine follows.regrown (κ := []) (P := True) has closed has_root adds.new
    (follows.way_regrown (.inr ⟨rfl, trivial, array, rfl⟩) (fun τ v label u _ arrives held => .inl ?_)
      fun label u held => ?_)
    (fun e he o howner => has o (owners e he o howner).home.has) (fun e he o c howner _ held => .inl ?_)
    (fun i has_i => ?_) fun _ => obeys
  · rw [kept v label (closed.has_of_along has_root arrives), held]
  · rw [slot?, adds.node]
    exact slot?_longer_of_slot? room held
  · rwa [kept o _ (has o (owners e he o howner).home.has)] at held
  · funext label
    rw [spans, spans, kept _ label has_i]

end

end Follows

end Writer

end FieldBinding
