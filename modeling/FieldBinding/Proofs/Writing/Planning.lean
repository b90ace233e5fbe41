import FieldBinding.Proofs.Writing.GroupQueue
import FieldBinding.Proofs.Writing.Joints

/-!
# Planned documents

Which places a document gets, and which collections stand there, can be planned before anything is written: a `Plan`
says which joints the ways of a document go through.  In a `Planned` document everything is in a place of the plan.
Whatever the writer makes on one of the ways, it makes at a place of the plan and of the type that is planned, so a
planned document goes on being planned.

Main results:

* `Writer.Planned.changes` — a change at one place keeps a document planned.
* `Writer.ownerFrom_planned`, `Writer.prepare_planned` — a path of a plan can be prepared.
-/

namespace FieldBinding

open FieldBinding.Graph

/-! ## Plans -/

/-- The joints that the ways of a document go through, at their places. -/
abbrev Plan :=
  List String → Joint → Prop

namespace Plan

/-- All ways go through the same brackets at one place. -/
def Consistent (plan : Plan) : Prop :=
  ∀ σ i j, plan σ i → plan σ j → i.bracket? = j.bracket?

/-- The joints from a place on are those of a way. -/
def Covers (plan : Plan) (π : List String) (way : List Joint) : Prop :=
  ∀ front j back, way = front ++ j :: back → plan (π ++ front.map Joint.label) j

/-- The places in front of an index, and that of the index itself. -/
def UpTo (plan : Plan) (σ : List String) : Prop :=
  ∃ τ kind n i, plan τ (.item kind n) ∧ i ≤ n ∧ σ = τ ++ [Numeral.text i]

/-- What a plan asks of places. -/
def demand (plan : Plan) : Demand := fun σ a =>
  ∃ j, plan σ j ∧ j.access = a

/-- The joints of some ways from the root. -/
def ofWays (ways : List (List Joint)) : Plan := fun σ j =>
  ∃ way ∈ ways, ∃ front back, way = front ++ j :: back ∧ σ = front.map Joint.label

variable {plan : Plan} {π : List String} {j : Joint} {way : List Joint}

theorem Covers.head (covers : plan.Covers π (j :: way)) : plan π j := by
  have planned := covers [] j way rfl
  rwa [List.map_nil, List.append_nil] at planned

theorem Covers.append {front : List Joint} (covers : plan.Covers π (front ++ way)) :
    plan.Covers (π ++ front.map Joint.label) way := by
  intro middle i back eq
  have planned := covers (front ++ middle) i back (by rw [eq, List.append_assoc])
  rwa [List.map_append, ← List.append_assoc] at planned

theorem Covers.tail (covers : plan.Covers π (j :: way)) : plan.Covers (π ++ [j.label]) way :=
  Covers.append (show plan.Covers π ([j] ++ way) from covers)

/-- Behind a segment the joints of the next ones are planned. -/
theorem Covers.behind {s : Segment} (covers : plan.Covers π (s.joints ++ way)) : plan.Covers (π ++ s.labels) way :=
  s.label_joints ▸ covers.append

/-- The name of the first segment is planned first. -/
theorem Covers.first_name {t : Segment} {others : List Segment} (named : t.name ≠ "")
    (covers : plan.Covers π ((t :: others).flatMap Segment.joints)) : plan π (.name t.name) := by
  rw [List.flatMap_cons, Segment.joints, Segment.names_of_ne named] at covers
  exact covers.head

theorem Covers.demand (covers : plan.Covers π way) : plan.demand.Covers π (way.map Joint.access) := by
  intro front a back eq
  obtain ⟨front, rest, rfl, rfl, behind⟩ := List.map_eq_append_iff.1 eq
  obtain ⟨j, back, rfl, rfl, rfl⟩ := List.map_eq_cons_iff.1 behind
  refine ⟨j, ?_, rfl⟩
  rw [List.map_map]
  exact covers front j back rfl

theorem covers_ofWays {ways : List (List Joint)} (mem : way ∈ ways) : (ofWays ways).Covers [] way :=
  fun front _ back eq => ⟨way, mem, front, back, eq, rfl⟩

/-- Ways that agree make a consistent plan. -/
theorem consistent_ofWays {ways : List (List Joint)} (agree : ∀ way ∈ ways, ∀ other ∈ ways, Agree way other) :
    (ofWays ways).Consistent := by
  rintro σ i j ⟨way, mem, front, back, rfl, rfl⟩ ⟨other, mem', front', back', rfl, labels⟩
  exact (agree _ mem _ mem').bracket_eq labels

/-- What is planned consistently does not ask for different things. -/
theorem Consistent.demand (consistent : plan.Consistent) : plan.demand.Consistent := by
  rintro σ _ _ ⟨i, hi, rfl⟩ ⟨j, hj, rfl⟩
  have brackets := consistent σ i j hi hj
  funext v
  cases i <;> cases j <;> cases brackets <;> cases v <;> rfl

end Plan

variable {g g₁ g' : Graph} {root root' v c : Value} {plan : Plan} {π ρ : List String} {label : String}
  {j : Joint} {n : Node}

/-- A joint is meant for the collections of its type, and nothing is known of their elements. -/
theorem Joint.hosts (type : g.tagOf v = j.type) : g.Hosts v j.access := by
  have untyped : g.elementType? v = none := by
    rw [Graph.elementType?, type]
    cases j <;> rfl
  refine ⟨?_, untyped⟩
  cases j <;> cases v <;> first | rfl | cases type

namespace Writer

/-- Everything in a document is in a place of a plan: a collection stands at a joint of its type, and null is the
missing root or fills up a sequence in front of an index. -/
def Planned (plan : Plan) (g : Graph) (root : Value) : Prop :=
  ∀ σ v, g.along root σ = some v →
    (v = .null ∧ (σ = [] ∨ plan.UpTo σ)) ∨ ∃ j, plan σ j ∧ g.tagOf v = j.type

namespace Planned

theorem null (plan : Plan) (g : Graph) : Planned plan g .null := by
  intro σ v arrives
  cases σ with
  | nil => exact .inl ⟨(Option.some.inj arrives).symm, .inl rfl⟩
  | cons label rest => cases arrives

/-- What stands at a place is of the type of every joint that is planned there. -/
theorem tagOf_eq (planned : Planned plan g root) (consistent : plan.Consistent) {σ : List String}
    (here : plan σ j) (arrives : g.along root σ = some v) (value : v ≠ .null) : g.tagOf v = j.type := by
  obtain ⟨i, there, type⟩ := (planned σ v arrives).resolve_left fun h => value h.1
  rw [type, Joint.type, Joint.type, consistent σ i j there here]

theorem suits (planned : Planned plan g root) (consistent : plan.Consistent) : Suits plan.demand g root := by
  rintro σ _ v ⟨j, here, rfl⟩ arrives
  by_cases value : v = .null
  · exact .inl value
  · exact .inr (Joint.hosts (planned.tagOf_eq consistent here arrives value))

/-- A change at one place keeps a document planned, if what comes to the place is planned there, and every null that is
new fills up a sequence. -/
theorem changes (planned : Planned plan g root) (tree : g.Treelike root)
    (changes : Changes π g root g' root')
    (here : ∀ v, g'.along root' π = some v → ∃ j, plan π j ∧ g'.tagOf v = j.type)
    (nulls : ∀ σ, g.along root σ = none → g'.along root' σ = some .null → plan.UpTo σ) :
    Planned plan g' root' := by
  intro σ v arrives
  by_cases place : σ = π
  · subst place
    exact .inr (here v arrives)
  · rcases changes.others σ place with same | ⟨absent, null⟩
    · rw [same] at arrives
      rw [tagOf_congr (changes.kinds v (tree.has_of_along arrives))]
      exact planned σ v arrives
    · obtain rfl := Option.some.inj (arrives.symm.trans null)
      exact .inl ⟨rfl, .inr (nulls σ absent arrives)⟩

/-- A list that is filled up goes on being planned. -/
theorem filled (planned : Planned plan g root) (tree : g.Treelike root) {id : NodeId} {kind : SequenceKind}
    {index : Nat} (arrives : g.along root π = some (.sequence .list id))
    (room : HasRoom (g.sequence id).items index) (asked : plan π (.item kind index)) :
    Planned plan (g.setItems id (padded (g.sequence id).items index)) root := by
  have fill := setItems_padded_rewrites (tree.has_of_along arrives) room
  have nulls : ∀ label d, paddedAt (g.sequence id).items.length index label = some d →
      d = .null ∧ g.slot? (.sequence .list id) label = none :=
    fun label d h => ⟨eq_null_of_paddedAt h, itemAt_eq_none_of_paddedAt h⟩
  have node := address_sequence .list id
  refine planned.changes tree (.pad tree arrives node fill nulls) (fun u found => ?_) fun σ absent null => ?_
  · rcases (tree.pads arrives node fill nulls).places π with same | ⟨absent, -⟩
    · rw [same, arrives, Option.some.injEq] at found
      subst found
      rw [tagOf_congr fill.kind_eq]
      exact (planned π _ arrives).resolve_left (by simp)
    · rw [arrives] at absent
      cases absent
  · obtain ⟨other, rfl, filled⟩ := tree.null_of_pad arrives node fill nulls absent null
    obtain ⟨i, rfl, le⟩ := exists_of_paddedAt (by rw [filled]; rfl)
    exact ⟨π, kind, index, i, asked, le, rfl⟩

end Planned

/-! ## Steps -/

/-- A longer array is of the type of the one that it takes the place of. -/
theorem tagOf_longer {id id' : NodeId} {index : Nat}
    (node : (g'.node (.sequence .array id')).kind = (Node.sequence (longer g id index)).kind) :
    g'.tagOf (.sequence .array id') = g.tagOf (.sequence .array id) := by
  have element : (g'.sequence id').element = (g.sequence id).element := NodeKind.sequence.inj node
  rw [tagOf, tagOf, element]

/-- The nulls of a longer array stand in front of the index. -/
theorem upTo_of_longer {id : NodeId} {kind : SequenceKind} {index : Nat} {other : String}
    (asked : plan π (.item kind index)) (arrives : g.along root π = some (.sequence .array id))
    (room : HasRoom (g.sequence id).items index) (absent : g.along root (π ++ [other]) = none)
    (null : (Node.sequence (longer g id index)).slot? other = some .null) : plan.UpTo (π ++ [other]) := by
  rw [along_concat, arrives, Option.bind_some] at absent
  rw [slot?_longer room .array, absent, Option.or_none] at null
  obtain ⟨i, rfl, le⟩ := exists_of_paddedAt (by rw [null]; rfl)
  exact ⟨π, kind, index, i, asked, le, rfl⟩

/-- What is made where it is missing is planned, if it is of the type of a joint. -/
theorem Creates.planned {make : Step Value} {opens : Prop}
    (creates : Creates make g v label opens (.ok c, g')) (tree : g.Treelike root)
    (planned : Planned plan g root) (arrives : g.along root π = some v) (asked : plan (π ++ [label]) j)
    (makes : ∃ c g₁, make.run g = (.ok c, g₁) ∧ g₁.tagOf c = j.type) : Planned plan g' root := by
  cases creates with
  | found => exact planned
  | @made _ n g₁ _ _ node missing run adds empty put =>
    obtain ⟨_, _, made, type⟩ := makes
    rw [run] at made
    cases made
    have continues := continues_of_missing empty (along_of_missing arrives missing)
    refine planned.changes tree (.graft tree arrives node adds put continues) (fun u found => ?_)
      fun σ absent null => ?_
    · rw [(tree.grafts arrives node adds put continues).place, Option.some.injEq] at found
      subst found
      exact ⟨j, asked, by rw [tagOf_congr put.kind_eq, type]⟩
    · obtain ⟨other, -, slot⟩ := tree.null_of_graft arrives node adds put continues absent null
      rw [empty] at slot
      cases slot

/-- So is a sequence that is made longer for an index. -/
theorem Enlarges.planned {owner c' : Value} {s : Segment}
    (enlarges : Enlarges g owner c s (.ok c', g')) (roomy : s.Roomy) (tree : g.Treelike root)
    (planned : Planned plan g root) (start : g.along root π = some owner)
    (arrives : g.along root (π ++ s.names) = some c)
    (asked : ∀ index, s.selector.index? = some index → ∃ kind, plan (π ++ s.names) (.item kind index)) :
    Planned plan g' root := by
  cases enlarges with
  | enough => exact planned
  | @filled id index hindex list =>
    subst list
    obtain ⟨kind, asked⟩ := asked index hindex
    exact planned.filled tree arrives (roomy.hasRoom hindex _) asked
  | @replaced id id' index g₁ _ hindex array named names adds put =>
    subst array
    obtain ⟨kind, asked⟩ := asked index hindex
    obtain ⟨j, here, type⟩ := (planned _ _ arrives).resolve_left (by simp)
    rw [Segment.names_of_ne named] at arrives asked here
    have room := roomy.hasRoom hindex (g.sequence id).items
    have continues := longer_continues arrives room
    have node := Value.address_of_holdsNames names
    refine planned.changes tree (.graft tree start node adds put continues) (fun u found => ?_)
      fun σ absent null => ?_
    · rw [(tree.grafts start node adds put continues).place, Option.some.injEq] at found
      subst found
      exact ⟨j, here, by rw [tagOf_longer (by rw [put.kind_eq, adds.node]), type]⟩
    · obtain ⟨other, rfl, slot⟩ := tree.null_of_graft start node adds put continues absent null
      exact upTo_of_longer asked arrives room absent slot

/-! ## What is made is of the type of the next joint -/

theorem tagOf_emptyCollection (g : Graph) (bracket : Option Bracket) :
    (emptyCollection g bracket).2.tagOf (emptyCollection g bracket).1 = Bracket.collectionType bracket := by
  unfold emptyCollection
  split
  · next kind =>
    have element : ((g.newSequence kind ⟨.any, []⟩).2.sequence g.sequences.next).element = .any :=
      congrArg Sequence.element (Store.get_push_next _ _)
    exact congrArg (TypeTag.sequence kind) element
  · next other =>
    have element : ((g.newMap ⟨.any, .empty⟩).2.map g.maps.next).element = .any :=
      congrArg MapNode.element (Store.get_push_next _ _)
    have type : Bracket.collectionType bracket = .map .any := by
      unfold Bracket.collectionType
      split
      · next kind => exact absurd rfl (other kind)
      · rfl
    rw [type]
    exact congrArg TypeTag.map element

/-- The joint behind the name of a segment: the place in its brackets, or else the name of the next segment. -/
def Joint.onward? (s : Segment) (next : Option Segment) : Option Joint :=
  s.selector.joint?.or (next.map fun t => .name t.name)

theorem access_onward? (s : Segment) (next : Option Segment) :
    (Joint.onward? s next).map Joint.access = onward? s next := by
  rw [Joint.onward?, onward?, ← Segment.access_joint?]
  cases s.selector.joint? <;> cases next <;> rfl

/-- In front of a name a map is made. -/
theorem intermediate_type (g : Graph) (path : Path) {t : Segment} (named : t.name ≠ "") :
    ∃ c g₁, (intermediate .empty path none (some t)).run g = (.ok c, g₁) ∧
      g₁.tagOf c = (Joint.name t.name).type := by
  refine ⟨_, _, ?_, tagOf_emptyCollection g none⟩
  simp only [intermediate, Option.bind_some, named, if_false, Step.alloc_run]

theorem newChild_type (g : Graph) (path : Path) {s : Segment} {next : Option Segment}
    (single : s.isWildcard = false) (named : ∀ t ∈ next, t.name ≠ "") (onward : Joint.onward? s next = some j) :
    ∃ c g₁, (newChild .empty path none s next).run g = (.ok c, g₁) ∧ g₁.tagOf c = j.type := by
  unfold newChild
  by_cases collection : s.isCollection
  · obtain ⟨i, joint⟩ := Segment.joint?_of_single collection single
    obtain rfl : i = j := by simpa [Joint.onward?, joint] using onward
    simp only [collection, if_true, Option.filter_none, Step.alloc_run]
    refine ⟨_, _, rfl, ?_⟩
    rw [tagOf_emptyCollection, Segment.bracket?_of_joint? joint, Joint.type]
  · have plain : s.isCollection = false := by simpa using collection
    rw [Joint.onward?, Segment.joint?_eq_none plain, Option.none_or, Option.map_eq_some_iff] at onward
    obtain ⟨t, rfl, rfl⟩ := onward
    simp only [plain, Bool.false_eq_true, if_false]
    exact intermediate_type g path (named t rfl)

/-! ## The way along a path -/

/-- A step that does not fail keeps what all of its runs keep. -/
theorem Completes.keeping {α : Type} {demand : Demand} {x : Step α} {post keeps : α → Graph → Prop}
    (completes : Completes demand ρ root g x post) (kept : ∀ a g', x.run g = (.ok a, g') → keeps a g') :
    Completes demand ρ root g x fun a g' => post a g' ∧ keeps a g' := by
  obtain ⟨a, g', run, makes, after⟩ := completes
  exact ⟨a, g', run, makes, after, kept a g' run⟩

section Way

variable (consistent : plan.Consistent) (tree : g.Treelike root) (planned : Planned plan g root)
  (path : Path) {s : Segment}

include consistent tree planned

theorem childOrCreate_planned {next : Option Segment} (single : s.isWildcard = false)
    (named : s.name ≠ "") (next_named : ∀ t ∈ next, t.name ≠ "") (onward : Joint.onward? s next = some j)
    (arrives : g.along root π = some v) (value : v ≠ .null) (asked : plan π (.name s.name))
    (asked' : plan (π ++ [s.name]) j) (front : π ++ s.names <+: ρ) :
    Completes plan.demand ρ root g (childOrCreate .empty path v s next) fun c g' =>
      (g'.along root π = some v ∧ g'.along root (π ++ s.names) = some c ∧ c ≠ .null ∧
        (s.name ≠ "" → v.holdsNames)) ∧ Planned plan g' root := by
  have onward' : onward? s next = some j.access := by rw [← access_onward?, onward, Option.map_some]
  refine (childOrCreate_completes consistent.demand tree (planned.suits consistent) path single named next_named
    onward' arrives value ⟨_, asked, rfl⟩ ⟨j, asked', rfl⟩ front).keeping fun c g' run => ?_
  have hosts := Joint.hosts (planned.tagOf_eq consistent asked arrives value)
  have creates := childOrCreate_creates (tree.has_of_along arrives) path named next
  rw [hosts.childType?_eq_none, run] at creates
  exact creates.planned tree planned arrives asked' (newChild_type g path single next_named onward)

theorem grow_planned {owner : Value} (roomy : s.Roomy) (named : s.name ≠ "") (names : owner.holdsNames)
    (start : g.along root π = some owner) (arrives : g.along root (π ++ s.names) = some c)
    (value : c ≠ .null) (joint : s.selector.joint? = some j) (asked : plan (π ++ s.names) j)
    (front : π ++ s.labels <+: ρ) :
    Completes plan.demand ρ root g (grow .empty path owner s c) fun c' g' =>
      (g'.along root π = some owner ∧ g'.along root (π ++ s.names) = some c' ∧ c' ≠ .null ∧
        ∀ n, s.selector.index? = some n → Addressable g' c' n) ∧ Planned plan g' root := by
  refine (grow_completes consistent.demand tree (planned.suits consistent) path roomy named names start arrives value
    ⟨j, asked, rfl⟩ front).keeping fun c' g' run => ?_
  have enlarges := grow_enlarges (tree.has_of_along arrives) (tree.has_of_along start) path (s := s) fun _ => names
  rw [run] at enlarges
  refine enlarges.planned roomy tree planned start arrives fun index hindex => ?_
  obtain ⟨kind, rfl⟩ := Segment.joint_of_index? hindex joint
  exact ⟨kind, asked⟩

theorem elementOrCreate_planned {slot : Slot} (hslot : s.selector.slot? = some slot) {t : Segment}
    (named : t.name ≠ "") (joint : s.selector.joint? = some j) (arrives : g.along root π = some c)
    (value : c ≠ .null) (addressable : ∀ n, s.selector.index? = some n → Addressable g c n)
    (asked : plan π j) (asked' : plan (π ++ [Graph.label slot]) (.name t.name))
    (front : π ++ [Graph.label slot] <+: ρ) :
    Completes plan.demand ρ root g (elementOrCreate .empty path c s (some t)) fun w g' =>
      (g'.along root (π ++ [Graph.label slot]) = some w ∧ w ≠ .null) ∧ Planned plan g' root := by
  have access : j.access = .slot slot := by
    have same := Segment.access_joint? s.selector
    rwa [joint, hslot, Option.map_some, Option.map_some, Option.some.injEq] at same
  refine (elementOrCreate_completes consistent.demand tree (planned.suits consistent) path hslot named arrives value
    addressable ⟨j, asked, access⟩ ⟨_, asked', rfl⟩ front).keeping fun w g' run => ?_
  have hosts := Joint.hosts (planned.tagOf_eq consistent asked arrives value)
  have creates := elementOrCreate_creates (tree.has_of_along arrives) path hslot (some t)
  rw [hosts.untyped, run] at creates
  exact creates.planned tree planned arrives asked' (intermediate_type g path named)

theorem collect_planned {next : Option Segment} (single : s.isWildcard = false) (roomy : s.Roomy)
    (named : s.name ≠ "") (next_named : ∀ t ∈ next, t.name ≠ "") (joint : s.selector.joint? = some j)
    (arrives : g.along root π = some v)
    (value : v ≠ .null) (asked : plan π (.name s.name)) (asked' : plan (π ++ [s.name]) j)
    (front : π ++ s.labels <+: ρ) :
    Completes plan.demand ρ root g (collect .empty path v s next) fun c g' =>
      (g'.along root (π ++ s.names) = some c ∧ c ≠ .null ∧
        ∀ n, s.selector.index? = some n → Addressable g' c n) ∧ Planned plan g' root := by
  refine .bind (childOrCreate_planned consistent tree planned path single named next_named
    (by rw [Joint.onward?, joint]; rfl) arrives value asked asked' (names_front front)) fun c g₁ tree₁ _ found => ?_
  obtain ⟨⟨start, arrives₁, value₁, names⟩, planned₁⟩ := found
  exact (grow_planned consistent tree₁ planned₁ path roomy named (names named) start arrives₁ value₁ joint
    (by rwa [Segment.names_of_ne named]) front).mono fun _ _ grown => ⟨grown.1.2, grown.2⟩

/-- A named segment of a plan is passed if others follow it. -/
theorem pass_planned {t : Segment} {others : List Segment} (single : s.isWildcard = false)
    (roomy : s.Roomy) (named : s.name ≠ "") (named_t : t.name ≠ "") (arrives : g.along root π = some v)
    (value : v ≠ .null)
    (covers : plan.Covers π (s.joints ++ (t :: others).flatMap Segment.joints)) (front : π ++ s.labels <+: ρ) :
    Completes plan.demand ρ root g (pass .empty path v s (some t)) fun w g' =>
      (g'.along root (π ++ s.labels) = some w ∧ w ≠ .null) ∧ Planned plan g' root := by
  have behind := covers.behind
  rw [Segment.joints, Segment.names_of_ne named] at covers
  have next_named : ∀ u ∈ some t, u.name ≠ "" := fun u same => Option.some.inj same ▸ named_t
  by_cases bracketed : s.isCollection
  case neg =>
    have none := Segment.joint?_eq_none (by simpa using bracketed)
    have labels : s.labels = s.names := by simp [Segment.labels, slot?_eq_none (by simpa using bracketed)]
    rw [labels, Segment.names_of_ne named] at behind
    rw [pass_of_plain (by simpa using bracketed), labels]
    exact (childOrCreate_planned consistent tree planned path single named next_named
      (by rw [Joint.onward?, none]; rfl) arrives value covers.head (behind.first_name named_t)
      (names_front front)).mono fun _ _ found => ⟨⟨found.1.2.1, found.1.2.2.1⟩, found.2⟩
  obtain ⟨i, joint⟩ := Segment.joint?_of_single bracketed single
  obtain ⟨slot, hslot, -⟩ := Segment.slot?_of_joint? joint
  have labels : π ++ s.labels = π ++ s.names ++ [Graph.label slot] := by simp [Segment.labels, hslot]
  rw [joint] at covers
  have asked : plan (π ++ [s.name]) i := covers.tail.head
  rw [pass_of_collection bracketed]
  refine .bind (collect_planned consistent tree planned path single roomy named next_named joint arrives value
    covers.head asked front) fun c g₁ tree₁ _ found => ?_
  obtain ⟨⟨arrives₁, value₁, addressable⟩, planned₁⟩ := found
  rw [labels] at behind front ⊢
  exact elementOrCreate_planned consistent tree₁ planned₁ path hslot named_t joint arrives₁ value₁ addressable
    (by rwa [Segment.names_of_ne named]) (behind.first_name named_t) front

/-- A walk along named segments of a plan makes what is planned. -/
theorem ownerFrom_planned {segments : List Segment} (single : ∀ s ∈ segments, s.isWildcard = false)
    (roomy : ∀ s ∈ segments, s.Roomy) (named : ∀ s ∈ segments, s.name ≠ "") (arrives : g.along root π = some v)
    (value : v ≠ .null)
    (covers : plan.Covers π (segments.flatMap Segment.joints))
    (front : π ++ segments.flatMap Segment.labels <+: ρ) :
    Completes plan.demand ρ root g (ownerFrom .empty path v segments) fun _ g' => Planned plan g' root := by
  induction segments generalizing v g π with
  | nil => exact .pure tree (planned.suits consistent) planned
  | cons s rest ih =>
    have single_s := single s List.mem_cons_self
    have roomy_s := roomy s List.mem_cons_self
    have named_s := named s List.mem_cons_self
    rw [List.flatMap_cons, ← List.append_assoc] at front
    rw [List.flatMap_cons] at covers
    have front_s : π ++ s.labels <+: ρ := (List.prefix_append _ _).trans front
    cases rest with
    | nil =>
      rw [ownerFrom_last]
      by_cases bracketed : s.isCollection
      case neg =>
        rw [if_neg bracketed]
        exact .pure tree (planned.suits consistent) planned
      obtain ⟨i, joint⟩ := Segment.joint?_of_single bracketed single_s
      rw [Segment.joints, Segment.names_of_ne named_s, joint] at covers
      rw [if_pos bracketed]
      exact .bind (collect_planned consistent tree planned path single_s roomy_s named_s (fun t none => by cases none)
        joint arrives value covers.head covers.tail.head front_s) fun _ _ tree₁ suits₁ found =>
          .pure tree₁ suits₁ found.2
    | cons t others =>
      rw [ownerFrom_cons (List.cons_ne_nil t others)]
      have named_t := named t (List.mem_cons_of_mem s List.mem_cons_self)
      refine .bind (pass_planned consistent tree planned path single_s roomy_s named_s named_t arrives value covers
        front_s) fun w g₁ tree₁ _ found => ?_
      exact ih tree₁ found.2 (fun u hu => single u (List.mem_cons_of_mem s hu))
        (fun u hu => roomy u (List.mem_cons_of_mem s hu))
        (fun u hu => named u (List.mem_cons_of_mem s hu)) found.1.1 found.1.2 covers.behind front

end Way

/-! ## Preparing -/

/-- A path of a plan leads through a planned document. -/
theorem reach_planned {path : Path} (consistent : plan.Consistent) (wellFormed : path.WellFormed)
    (single : path.hasWildcard = false) (roomy : path.Roomy) (named : ∀ s ∈ path.tail, s.name ≠ "")
    (below : path.tail ≠ []) (tree : g.Treelike root) (planned : Planned plan g root) (value : root ≠ .null)
    (addressable : ∀ n, path.head.selector.index? = some n → Addressable g root n)
    (covers : plan.Covers [] path.joints) :
    Completes plan.demand path.route root g (reach .empty path root) fun _ g' => Planned plan g' root := by
  have single_tail := fun s hs => Path.single_of_mem single (s := s) (List.mem_cons_of_mem _ hs)
  have roomy_tail := fun s hs => roomy s (List.mem_cons_of_mem _ hs)
  rw [Path.joints_eq wellFormed] at covers
  unfold reach
  by_cases bracketed : path.head.isCollection
  · obtain ⟨j, joint⟩ := Segment.joint?_of_single bracketed (Path.single_of_mem single List.mem_cons_self)
    obtain ⟨slot, hslot, label⟩ := Segment.slot?_of_joint? joint
    have route := route_of_head_slot wellFormed hslot
    rw [joint] at covers
    have behind : plan.Covers ([] ++ [Graph.label slot]) (path.tail.flatMap Segment.joints) :=
      label ▸ covers.tail
    obtain ⟨t, others, tail⟩ := List.exists_cons_of_ne_nil below
    have named_t := named t (tail ▸ List.mem_cons_self)
    rw [if_pos bracketed, show path.tail.head? = some t by rw [tail]; rfl]
    refine .bind (elementOrCreate_planned consistent tree planned path hslot named_t joint (along_nil _ _) value
      addressable covers.head ((tail ▸ behind).first_name named_t) (route ▸ List.prefix_append _ _))
      fun start g₁ tree₁ _ found => ?_
    exact ownerFrom_planned consistent tree₁ found.2 path single_tail roomy_tail named found.1.1 found.1.2 behind
      (route ▸ List.prefix_rfl)
  · rw [Segment.joint?_eq_none (by simpa using bracketed)] at covers
    rw [if_neg bracketed, pure_bind]
    exact ownerFrom_planned consistent tree planned path single_tail roomy_tail named (along_nil _ _) value covers
      (by rw [Path.route, Path.followed_of_plain bracketed]; exact List.prefix_rfl)

theorem MakesRoot.planned {w w' : Writer} {bracket : Option Bracket} (makes : MakesRoot w bracket w')
    (tree : w.graph.Treelike w.root) (planned : Planned plan w.graph w.root) (asked : plan [] j)
    (type : Bracket.collectionType bracket = j.type) : Planned plan w'.graph w'.root := by
  cases makes with
  | found => exact planned
  | made missing adds empty =>
    have null : w.graph.along w.root [] = some .null := congrArg some missing
    have continues := continues_of_missing empty (.inr null)
    refine planned.changes tree (.graft_root tree adds continues) (fun u found => ?_) fun σ absent null => ?_
    · obtain rfl := Option.some.inj found
      exact ⟨j, asked, by rw [tagOf_emptyCollection, type]⟩
    · obtain ⟨other, -, slot⟩ := tree.null_of_graft_root adds continues absent null
      rw [empty] at slot
      cases slot

theorem EnlargesRoot.planned {w w' : Writer} {index : Nat} (enlarges : EnlargesRoot w index w')
    (fits : index + 1 < 2 ^ 64) (tree : w.graph.Treelike w.root) (planned : Planned plan w.graph w.root)
    {kind : SequenceKind}
    (asked : plan [] (.item kind index)) : Planned plan w'.graph w'.root := by
  cases enlarges with
  | enough => exact planned
  | @filled id list =>
    have arrives : w.graph.along w.root [] = some (.sequence .list id) := congrArg some list
    exact planned.filled tree arrives (fun _ => fits) asked
  | @replaced id id' g₁ array adds =>
    have arrives : w.graph.along w.root [] = some (.sequence .array id) := congrArg some array
    have room : HasRoom (w.graph.sequence id).items index := fun _ => fits
    have continues := longer_continues arrives room
    obtain ⟨j, here, type⟩ := (planned _ _ arrives).resolve_left (by simp)
    refine planned.changes tree (.graft_root tree adds continues) (fun u found => ?_) fun σ absent null => ?_
    · obtain rfl := Option.some.inj found
      exact ⟨j, here, by rw [tagOf_longer (by rw [adds.node]), type]⟩
    · obtain ⟨other, rfl, slot⟩ := tree.null_of_graft_root adds continues absent null
      exact upTo_of_longer asked arrives room absent slot

theorem ensureRoot_planned {w : Writer} (tree : w.graph.Treelike w.root) (planned : Planned plan w.graph w.root)
    {s : Segment} (roomy : s.Roomy) (asked : plan [] j) (type : Bracket.collectionType s.selector.bracket? = j.type)
    (index : ∀ n, s.selector.index? = some n → ∃ kind, plan [] (.item kind n)) :
    Planned plan (ensureRoot s w).2.graph (ensureRoot s w).2.root := by
  obtain ⟨w₁, makes, more⟩ := ensureRoot_makes tree.has s
  have planned₁ := makes.planned tree planned asked type
  rcases more with ⟨-, same⟩ | ⟨n, hindex, enlarges⟩
  · rwa [same]
  · obtain ⟨kind, asked_n⟩ := index n hindex
    exact enlarges.planned (roomy n hindex) (makes.frames (ρ := []) tree).2.2 planned₁ asked_n

/-- At the root there is a joint of the collection that is made for it. -/
theorem exists_rootJoint {path : Path} (wellFormed : path.WellFormed) (single : path.hasWildcard = false)
    (named : ∀ s ∈ path.tail, s.name ≠ "") (more : path.followed ≠ []) (covers : plan.Covers [] path.joints) :
    ∃ j, plan [] j ∧ Bracket.collectionType path.head.selector.bracket? = j.type ∧
      ∀ n, path.head.selector.index? = some n → ∃ kind, plan [] (.item kind n) := by
  rw [Path.joints_eq wellFormed] at covers
  by_cases bracketed : path.head.isCollection
  · obtain ⟨j, joint⟩ := Segment.joint?_of_single bracketed (Path.single_of_mem single List.mem_cons_self)
    rw [joint] at covers
    refine ⟨j, covers.head, by rw [Segment.bracket?_of_joint? joint, Joint.type], fun n hn => ?_⟩
    obtain ⟨kind, rfl⟩ := Segment.joint_of_index? hn joint
    exact ⟨kind, covers.head⟩
  · obtain ⟨t, others, tail⟩ := List.exists_cons_of_ne_nil (Path.followed_of_plain bracketed ▸ more)
    have plain : path.head.selector.bracket? = none := by simpa [Segment.isCollection] using bracketed
    rw [Segment.joint?_eq_none (by simpa using bracketed), tail] at covers
    refine ⟨.name t.name, covers.first_name (named t (tail ▸ List.mem_cons_self)), by rw [plain]; rfl,
      fun n hn => ?_⟩
    have slot := slot?_of_index? hn
    rw [slot?_eq_none (by simpa using bracketed)] at slot
    cases slot

/-- A path of a plan can be prepared in a planned document. -/
theorem prepare_planned {path : Path} (writable : path.Writable) (roomy : path.Roomy) {w : Writer}
    (tree : w.graph.Treelike w.root)
    (planned : Planned plan w.graph w.root) (consistent : plan.Consistent) (covers : plan.Covers [] path.joints) :
    ∃ owner root g', (prepare .empty path).run w = (.ok owner, { w with root, graph := g' }) ∧
      Makes plan.demand path.route w.graph w.root g' root ∧ root ≠ .null ∧ Prepared g' root path owner ∧
      Planned plan g' root := by
  obtain ⟨wellFormed, single, more, named⟩ := writable
  have suits := planned.suits consistent
  obtain ⟨owner, root, g', run, makes, value, prepared⟩ :=
    prepare_completes wellFormed single roomy named more tree suits consistent.demand
      (path.access_joints ▸ covers.demand)
  refine ⟨owner, root, g', run, makes, value, prepared, ?_⟩
  obtain ⟨j, asked, type, index⟩ := exists_rootJoint wellFormed single named more covers
  have hosts := Joint.hosts ((tagOf_emptyCollection w.graph path.head.selector.bracket?).trans type)
  have roomy_head := roomy path.head List.mem_cons_self
  obtain ⟨root₁, g₁, run₁, makes₁, value₁, addressable⟩ :=
    ensureRoot_completes (ρ := path.route) tree suits consistent.demand roomy_head ⟨j, asked, rfl⟩ hosts
      fun n hn => by
        rw [route_of_head_slot wellFormed (slot?_of_index? hn)]
        exact List.prefix_append _ _
  have planned₁ := ensureRoot_planned tree planned roomy_head asked type index
  rw [run₁] at planned₁
  by_cases atRoot : path.tail = []
  · rw [prepare_of_root single atRoot run₁] at run
    cases run
    exact planned₁
  · obtain ⟨_, g₂, run₂, -, planned₂⟩ := reach_planned consistent wellFormed single roomy named atRoot
      makes₁.tree planned₁ value₁ addressable covers
    rw [prepare_of_reach single atRoot run₁ run₂] at run
    cases run
    exact planned₂

end Writer

end FieldBinding
