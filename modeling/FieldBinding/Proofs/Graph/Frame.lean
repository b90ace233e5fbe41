import FieldBinding.Proofs.Graph.Ahead

/-!
# The frame of a change

Whatever the writer does at a path, it does on the route of the path.  `Graph.Frames` says what that leaves of
a document: on the way to the end of the route places only grow, and apart from it every place holds the same
value with the same node behind it.  There is one exception.  A sequence that has to be longer is filled up with
nulls, so in front of an index of the route there may be new places with null in them.

Main results:

* `Graph.Frames.trans` — changes on one route can be strung together.
* `Graph.Frames.graft`, `Graph.Frames.graft_root`, `Graph.Frames.pad`, `Graph.Frames.add`, `Graph.Frames.store` — the
  changes that the writer makes.
* `Graph.Frames.contentWithin_eq` — a value at a place apart from the route keeps its content.
-/

namespace FieldBinding.Graph

variable {g g₁ g' : Graph} {root root₁ root' : Value} {ρ σ : List String}

/-! ## Parted routes -/

/-- Neither of two routes is in front of the other. -/
def Parted (σ ρ : List String) : Prop :=
  ¬σ <+: ρ ∧ ¬ρ <+: σ

instance (σ ρ : List String) : Decidable (Parted σ ρ) :=
  inferInstanceAs (Decidable (_ ∧ _))

theorem Parted.symm (parted : Parted σ ρ) : Parted ρ σ :=
  ⟨parted.2, parted.1⟩

/-- Two ways that have parted do not meet again. -/
theorem Parted.append (parted : Parted σ ρ) (τ : List String) : Parted (σ ++ τ) ρ := by
  refine ⟨fun h => parted.1 ((List.prefix_append σ τ).trans h), fun h => ?_⟩
  rcases List.prefix_or_prefix_of_prefix h (List.prefix_append σ τ) with h | h
  · exact parted.2 h
  · exact parted.1 h

theorem Parted.append_right (parted : Parted σ ρ) (τ : List String) : Parted σ (ρ ++ τ) :=
  (parted.symm.append τ).symm

/-! ## Frames -/

/-- A place in front of an index that a route goes through. -/
def Padding (g : Graph) (root : Value) (ρ σ : List String) : Prop :=
  ∃ α i n β kind id, σ = α ++ [Numeral.text i] ∧ ρ = α ++ Numeral.text n :: β ∧ i < n ∧
    g.along root α = some (.sequence kind id)

/-- What a change on a route leaves of a document. -/
structure Frames (ρ : List String) (g : Graph) (root : Value) (g' : Graph) (root' : Value) : Prop where
  has : ∀ v, g.Has v → g'.Has v
  on : ∀ σ, σ <+: ρ → σ ≠ ρ → Grown g (g.along root σ) (g'.along root' σ)
  off : ∀ σ, Parted σ ρ → g'.along root' σ = g.along root σ ∨
    (g.along root σ = none ∧ g'.along root' σ = some .null ∧ Padding g' root' ρ σ)
  nodes : ∀ σ v, Parted σ ρ → g.along root σ = some v → g'.node v = g.node v

namespace Frames

theorem refl (ρ : List String) (g : Graph) (root : Value) : Frames ρ g root g root :=
  ⟨fun _ h => h, fun _ _ _ => .same _, fun _ _ => .inl rfl, fun _ _ _ _ => rfl⟩

/-- In front of the end of the route a sequence stays a sequence. -/
theorem padding (frames : Frames ρ g root g' root') (padding : Padding g root ρ σ) :
    Padding g' root' ρ σ := by
  obtain ⟨α, i, n, β, kind, id, same, route, lt, arrives⟩ := padding
  have place := frames.on α (route ▸ List.prefix_append _ _) fun h => by simp [route] at h
  rw [arrives] at place
  generalize found : g'.along root' α = x at place
  cases place with
  | same => exact ⟨α, i, n, β, _, _, same, route, lt, found⟩
  | filled missing _ => simp at missing
  | longer _ => exact ⟨α, i, n, β, _, _, same, route, lt, found⟩

theorem trans (a : Frames ρ g root g₁ root₁) (b : Frames ρ g₁ root₁ g' root') :
    Frames ρ g root g' root' where
  has v h := b.has v (a.has v h)
  on σ front more := (a.on σ front more).trans a.has (b.on σ front more)
  off σ parted := by
    rcases a.off σ parted with same | ⟨absent, null, padding⟩
    · rw [← same]
      exact b.off σ parted
    · rcases b.off σ parted with same | ⟨absent', -⟩
      · exact .inr ⟨absent, same.trans null, b.padding padding⟩
      · rw [null] at absent'
        cases absent'
  nodes σ v parted h := by
    have still : g₁.along root₁ σ = some v := by
      rcases a.off σ parted with same | ⟨absent, -⟩
      · rw [same, h]
      · rw [h] at absent
        cases absent
    rw [b.nodes σ v parted still, a.nodes σ v parted h]

/-- What stays within the frame of a route stays within the frame of its front. -/
theorem front {τ : List String} (frames : Frames (ρ ++ τ) g root g' root') :
    Frames ρ g root g' root' where
  has := frames.has
  on σ front more := by
    refine frames.on σ (front.trans (List.prefix_append ρ τ)) ?_
    rintro rfl
    refine more (front.eq_of_length (Nat.le_antisymm front.length_le ?_))
    simp
  off σ parted := by
    refine (frames.off σ (parted.append_right τ)).imp_right fun ⟨absent, null, padding⟩ =>
      ⟨absent, null, ?_⟩
    obtain ⟨α, i, n, β, kind, id, rfl, route, lt, arrives⟩ := padding
    -- the index of the route lies in its front, since the place has parted from that
    rcases List.append_eq_append_iff.1 route with ⟨δ, rfl, -⟩ | ⟨δ, rfl, same⟩
    · exact absurd ((List.prefix_append ρ δ).trans (List.prefix_append _ _)) parted.2
    cases δ with
    | nil => exact absurd (by simp) parted.2
    | cons label δ =>
      obtain ⟨rfl, rfl⟩ := List.cons.inj same
      exact ⟨α, i, n, δ, kind, id, rfl, rfl, lt, arrives⟩
  nodes σ v parted := frames.nodes σ v (parted.append_right τ)

/-! ## Changes at one place -/

/-- A label in front of an index of the sequence at a place, where the route goes through that index. -/
def Fills (c : Value) (π ρ : List String) (label : String) : Prop :=
  ∃ i n kind id, c = .sequence kind id ∧ label = Numeral.text i ∧ i ≤ n ∧
    π ++ [Numeral.text n] <+: ρ

/-- A change at one place of a route: apart from that place nothing has changed, but nulls may have come below
it. -/
theorem of_place {π : List String} {c : Value} (front : π <+: ρ) (place : g'.along root' π = some c)
    (others : ∀ σ, σ ≠ π → g'.along root' σ = g.along root σ ∨
      (g.along root σ = none ∧ g'.along root' σ = some .null))
    (grows : g.Grows root g' root')
    (nodes : ∀ τ u, ¬τ <+: ρ → g.along root τ = some u → g'.node u = g.node u)
    (fills : ∀ σ, g.along root σ = none → g'.along root' σ = some .null →
      ∃ label, σ = π ++ [label] ∧ Fills c π ρ label) : Frames ρ g root g' root' where
  has := grows.has
  on σ _ _ := grows.places σ
  nodes σ v parted h := nodes σ v parted.1 h
  off σ parted := by
    have elsewhere : σ ≠ π := fun same => parted.1 (same ▸ front)
    refine (others σ elsewhere).imp_right fun ⟨absent, null⟩ => ⟨absent, null, ?_⟩
    obtain ⟨label, rfl, i, n, kind, id, rfl, rfl, le, β, route⟩ := fills σ absent null
    refine ⟨π, i, n, β, kind, id, rfl, by rw [← route]; simp, ?_, place⟩
    refine Nat.lt_of_le_of_ne le ?_
    rintro rfl
    exact parted.1 ⟨β, route⟩

variable {π : List String} {x c : Value} {n : Node} {label : String}

/-- A new node in a slot. -/
theorem graft (tree : g.Treelike root) (arrives : g.along root π = some x)
    (node : x.address? ≠ none) (front : π ++ [label] <+: ρ) (adds : g.Adds g₁ c n)
    (put : g₁.Rewrites g' x (onlyAt label c)) (continues : g.Continues root (π ++ [label]) n)
    (before : g.along root (π ++ [label]) = none ∨ g.along root (π ++ [label]) = some .null ∨
      ∃ id id', g.along root (π ++ [label]) = some (.sequence .array id) ∧ c = .sequence .array id')
    (fills : ∀ other, g.along root (π ++ [label] ++ [other]) = none → n.slot? other = some .null →
      Fills c (π ++ [label]) ρ other) : Frames ρ g root g' root := by
  have grafts := tree.grafts arrives node adds put continues
  have front_x : π <+: ρ := (List.prefix_append π [label]).trans front
  refine of_place front grafts.place grafts.others (grafts.grows before) (fun τ u off found => ?_)
    fun σ absent null => ?_
  · have apart : u.address? ≠ x.address? := by
      intro same
      have := tree.unshared τ π u x found arrives same (same ▸ node)
      exact off (this ▸ front_x)
    rw [put.kept u apart, adds.kept u (tree.has_of_along found)]
  · obtain ⟨other, rfl, slot⟩ := tree.null_of_graft arrives node adds put continues absent null
    exact ⟨other, rfl, fills other absent slot⟩

/-- A new node for a root. -/
theorem graft_root (tree : g.Treelike root) (adds : g.Adds g' c n) (continues : g.Continues root [] n)
    (before : root = .null ∨ ∃ id id', root = .sequence .array id ∧ c = .sequence .array id')
    (fills : ∀ other, g.along root [other] = none → n.slot? other = some .null → Fills c [] ρ other) :
    Frames ρ g root g' c := by
  have grafts := tree.grafts_root adds continues
  have grows : g.Grows root g' c := by
    refine grafts.grows (.inr ?_)
    rcases before with rfl | ⟨id, id', rfl, rfl⟩
    · exact .inl rfl
    · exact .inr ⟨id, id', rfl, rfl⟩
  refine of_place List.nil_prefix grafts.place grafts.others grows
    (fun τ u _ found => adds.kept u (tree.has_of_along found)) fun σ absent null => ?_
  obtain ⟨other, rfl, slot⟩ := tree.null_of_graft_root adds continues absent null
  exact ⟨other, rfl, fills other absent slot⟩

/-- A sequence that is filled up. -/
theorem pad {values : String → Option Value} (tree : g.Treelike root)
    (arrives : g.along root π = some x) (node : x.address? ≠ none) (value : ∀ id, x ≠ .sequence .array id)
    (front : π <+: ρ) (fill : g.Rewrites g' x values)
    (nulls : ∀ label d, values label = some d → d = .null ∧ g.slot? x label = none)
    (fills : ∀ label d, values label = some d → Fills x π ρ label) : Frames ρ g root g' root := by
  have pads := tree.pads arrives node fill nulls
  have place : g'.along root π = some x := by
    have notNull : x ≠ .null := by
      rintro rfl
      exact node rfl
    rcases pads.grows.kept arrives notNull with kept | ⟨id, -, array, -⟩
    · exact kept
    · exact absurd array (value id)
  refine of_place front place (fun σ _ => pads.places σ) pads.grows (fun τ u off found => ?_)
    fun σ absent null => ?_
  · have apart : u.address? ≠ x.address? := by
      intro same
      have := tree.unshared τ π u x found arrives same (same ▸ node)
      exact off (this ▸ front)
    exact fill.kept u apart
  · obtain ⟨other, rfl, filled⟩ := tree.null_of_pad arrives node fill nulls absent null
    exact ⟨other, rfl, fills other .null filled⟩

/-- A node that nobody holds. -/
theorem add (tree : g.Treelike root) (adds : g.Adds g' c n)
    (children : ∀ label d, n.slot? label = some d → g.Has d) : Frames ρ g root g' root := by
  have pads := tree.pads_of_adds adds children
  have same : ∀ σ, g'.along root σ = g.along root σ := fun σ =>
    along_congr fun α label β u _ found => by
      rw [slot?, slot?, adds.kept u (tree.has_of_along found)]
  exact ⟨pads.has, fun σ _ _ => pads.grows.places σ, fun σ _ => .inl (same σ),
    fun σ u _ found => adds.kept u (tree.has_of_along found)⟩

/-- A value at the end of the route. -/
theorem store {f : Graph} {v : Value} (ahead : Ahead [(ρ, v)] root g f) : Frames ρ g root f root := by
  have free : ∀ σ, σ ≠ ρ → Stores.at? [(ρ, v)] σ = none := fun σ ne => by
    rw [← List.nil_append [(ρ, v)], Stores.at?_concat, if_neg ne, Stores.at?_nil]
  have same : ∀ σ, ¬ρ <+: σ → f.along root σ = g.along root σ := by
    intro σ off
    refine along_congr fun α label β u eq found => ?_
    rw [ahead.slot α u label found, free, Option.none_or]
    rintro rfl
    exact off ⟨β, by simp [eq]⟩
  refine ⟨fun u h => (ahead.has u).2 h, fun σ front more => ?_, fun σ parted => .inl (same σ parted.2),
    fun σ u parted found => ?_⟩
  · rw [same σ fun h => more (front.eq_of_length (Nat.le_antisymm front.length_le h.length_le))]
    exact .same _
  · refine Node.ext_slots (ahead.kind σ u found) fun label => ?_
    have slot := ahead.slot σ u label found
    rw [free _ fun h => parted.1 (h ▸ List.prefix_append σ [label]), Option.none_or] at slot
    exact slot

/-! ## Content -/

/-- A value at a place apart from the route keeps its content. -/
theorem contentWithin_eq (frames : Frames ρ g root g' root') (depth : Nat) {σ : List String}
    {v : Value} (parted : Parted σ ρ) (h : g.along root σ = some v) :
    g'.contentWithin depth v = g.contentWithin depth v := by
  induction depth generalizing σ v with
  | zero => cases v <;> rfl
  | succ depth ih =>
    refine contentWithin_succ_congr (frames.nodes σ v parted h) fun c child => ?_
    obtain ⟨label, slot⟩ := (g.mem_children_iff v c).1 child
    exact ih (parted.append [label]) (by rw [along_concat, h, Option.bind_some, slot])

end Frames

end FieldBinding.Graph
