import FieldBinding.Proofs.Graph.Homes
import FieldBinding.Proofs.Reading.Untyped
import FieldBinding.Proofs.Writing.Steps

/-!
# Documents that suit what is asked of them

A write fails where the document already holds something of the wrong kind.  `Demand` says what is asked of places:
the accesses that the values there are meant for.  A document suits a demand if whatever it holds at such a place is
meant for the access, and has no declared type of elements.  What a writer makes on the way along a path is what the
next access asks for, so a document that suits keeps suiting, and no step of the writer fails.

A map has a place for every index, but an index is meant for a sequence: the places of a map are its keys, and a read
under a wildcard would come back with keys.

Main results:

* `Writer.Suits.changes` — a change at one place keeps a document suiting.
* `Writer.ownerFrom_completes`, `Writer.prepare_completes` — a path can be prepared in a document that suits it.
-/

namespace FieldBinding

open FieldBinding.Graph

/-- What is asked of places: the accesses that the values there are meant for. -/
abbrev Demand :=
  List String → Access → Prop

namespace Demand

/-- What is asked of one place can be had of one value. -/
def Consistent (demand : Demand) : Prop :=
  ∀ σ a b, demand σ a → demand σ b → a.meantFor = b.meantFor

/-- Accesses that start from a place ask something of the places behind it. -/
def Covers (demand : Demand) (π : List String) (accesses : List Access) : Prop :=
  ∀ front a back, accesses = front ++ a :: back → demand (π ++ front.map Access.label) a

variable {demand : Demand} {π : List String} {a : Access} {accesses : List Access}

theorem Covers.head (covers : demand.Covers π (a :: accesses)) : demand π a := by
  have asked := covers [] a accesses rfl
  rwa [List.map_nil, List.append_nil] at asked

theorem Covers.append {front : List Access} (covers : demand.Covers π (front ++ accesses)) :
    demand.Covers (π ++ front.map Access.label) accesses := by
  intro middle b back eq
  have asked := covers (front ++ middle) b back (by rw [eq, List.append_assoc])
  rwa [List.map_append, ← List.append_assoc] at asked

theorem Covers.tail (covers : demand.Covers π (a :: accesses)) : demand.Covers (π ++ [a.label]) accesses :=
  Covers.append (show demand.Covers π ([a] ++ accesses) from covers)

/-- Behind a segment the accesses of the next ones are asked for. -/
theorem Covers.behind {s : Segment} (covers : demand.Covers π (s.accesses ++ accesses)) :
    demand.Covers (π ++ s.labels) accesses :=
  s.labels_accesses ▸ covers.append

/-- The name of the first segment is asked first. -/
theorem Covers.first_name {t : Segment} {others : List Segment} (named : t.name ≠ "")
    (covers : demand.Covers π ((t :: others).flatMap Segment.accesses)) : demand π (.name t.name) := by
  rw [List.flatMap_cons, Segment.accesses, Segment.names_of_ne named] at covers
  exact covers.head

end Demand

variable {g g₁ g' : Graph} {root root' v c : Value} {demand : Demand} {π ρ : List String}
  {label : String} {a b : Access} {n : Node}

/-! ## Values for an access -/

/-- An access is meant for a value, and the elements of the value have no declared type. -/
structure Graph.Hosts (g : Graph) (v : Value) (a : Access) : Prop where
  meant : a.meantFor v = true
  untyped : g.elementType? v = none

namespace Graph.Hosts

theorem opens (hosts : g.Hosts v a) : a.opens v = true :=
  a.opens_of_meantFor hosts.meant

theorem congr (hosts : g.Hosts v a) (kind : (g'.node v).kind = (g.node v).kind) : g'.Hosts v a :=
  ⟨hosts.meant, by rw [elementType?_congr kind, hosts.untyped]⟩

theorem alike (hosts : g.Hosts v a) (alike : a.meantFor = b.meantFor) : g.Hosts v b :=
  ⟨alike ▸ hosts.meant, hosts.untyped⟩

/-- A sequence in the place of another of its kind is good for the same. -/
theorem sequence {kind : SequenceKind} {id id' : NodeId} (hosts : g.Hosts (.sequence kind id) a)
    (same : (g'.node (.sequence kind id')).kind = (g.node (.sequence kind id)).kind) :
    g'.Hosts (.sequence kind id') a := by
  have element : (g'.sequence id').element = (g.sequence id).element := NodeKind.sequence.inj same
  have type : g'.elementType? (.sequence kind id') = g.elementType? (.sequence kind id) := by
    rw [elementType?, elementType?, tagOf, tagOf, element]
  refine ⟨?_, type.trans hosts.untyped⟩
  have meant := hosts.meant
  rcases a with _ | _ | _
  · cases meant
  · rfl
  · cases meant

/-- Nothing is known of a child of such a value either. -/
theorem childType?_eq_none (hosts : g.Hosts v a) (name : String) :
    Registry.empty.childType? g v name none = none := by
  cases v with
  | map id => exact hosts.untyped
  | object id => exact Registry.declared?_empty _ name
  | _ => rfl

end Graph.Hosts

/-! ## Changes at one place -/

/-- A change at one place: apart from it nothing has changed but that nulls may have come, nodes keep their kinds,
and those in no place are as they were. -/
structure Graph.Changes (π : List String) (g : Graph) (root : Value) (g' : Graph) (root' : Value) :
    Prop where
  others : ∀ σ, σ ≠ π → g'.along root' σ = g.along root σ ∨
    (g.along root σ = none ∧ g'.along root' σ = some .null)
  kinds : ∀ v, g.Has v → (g'.node v).kind = (g.node v).kind
  spares : ∀ v, g.Has v → g.Outside root v → g'.node v = g.node v

namespace Graph.Changes

theorem graft (tree : g.Treelike root) {x : Value} (arrives : g.along root π = some x)
    (node : x.address? ≠ none) (adds : g.Adds g₁ c n) (put : g₁.Rewrites g' x (onlyAt label c))
    (continues : g.Continues root (π ++ [label]) n) : Changes (π ++ [label]) g root g' root where
  others := (tree.grafts arrives node adds put continues).others
  kinds v has := by rw [put.kind_eq, adds.kept v has]
  spares v has outside := by
    by_cases same : v.address? = x.address?
    · exact absurd (outside π x arrives same.symm) (same ▸ node)
    · rw [put.kept v same, adds.kept v has]

theorem graft_root (tree : g.Treelike root) (adds : g.Adds g' c n) (continues : g.Continues root [] n) :
    Changes [] g root g' c where
  others := (tree.grafts_root adds continues).others
  kinds v has := by rw [adds.kept v has]
  spares v has _ := adds.kept v has

theorem pad {values : String → Option Value} (tree : g.Treelike root) {x : Value}
    (arrives : g.along root π = some x) (node : x.address? ≠ none) (fill : g.Rewrites g' x values)
    (nulls : ∀ label d, values label = some d → d = .null ∧ g.slot? x label = none) :
    Changes π g root g' root where
  others σ _ := (tree.pads arrives node fill nulls).places σ
  kinds _ _ := fill.kind_eq
  spares v _ outside := by
    refine fill.kept v fun same => ?_
    exact absurd (outside π x arrives same.symm) (same ▸ node)

end Graph.Changes

namespace Writer

/-- Whatever a document holds at a place is good for what is asked of the place. -/
def Suits (demand : Demand) (g : Graph) (root : Value) : Prop :=
  ∀ σ a v, demand σ a → g.along root σ = some v → v = .null ∨ g.Hosts v a

/-- An empty document suits everything. -/
theorem Suits.null (demand : Demand) (g : Graph) : Suits demand g .null := by
  intro σ a v _ arrives
  cases σ with
  | nil => exact .inl (Option.some.inj arrives).symm
  | cons label rest => cases arrives

/-- A change at one place keeps a document suiting, if what comes to the place is good for something that is asked
of it. -/
theorem Suits.changes (suits : Suits demand g root) (consistent : demand.Consistent)
    (tree : g.Treelike root) (changes : Changes π g root g' root')
    (here : ∀ v, g'.along root' π = some v → v = .null ∨ ∃ b, demand π b ∧ g'.Hosts v b) :
    Suits demand g' root' := by
  intro σ a v asked arrives
  by_cases place : σ = π
  · subst place
    refine (here v arrives).imp_right fun ⟨b, asked', hosts⟩ => ?_
    exact hosts.alike (consistent _ b a asked' asked)
  · rcases changes.others σ place with same | ⟨-, null⟩
    · rw [same] at arrives
      refine (suits σ a v asked arrives).imp_right fun hosts => ?_
      exact hosts.congr (changes.kinds v (tree.has_of_along arrives))
    · rw [null] at arrives
      exact .inl (Option.some.inj arrives).symm

/-! ## Steps that do not fail -/

/-- What a writer makes of a document on the way along a route. -/
structure Makes (demand : Demand) (ρ : List String) (g : Graph) (root : Value) (g' : Graph)
    (root' : Value) : Prop where
  tree : g'.Treelike root'
  grows : g.Grows root g' root'
  frames : Frames ρ g root g' root'
  spares : ∀ v, g.Has v → g.Outside root v → g'.node v = g.node v
  suits : Suits demand g' root'

namespace Makes

theorem refl (ρ : List String) (tree : g.Treelike root) (suits : Suits demand g root) :
    Makes demand ρ g root g root :=
  ⟨tree, .refl g root, .refl ρ g root, fun _ _ _ => rfl, suits⟩

theorem trans {root₁ : Value} (first : Makes demand ρ g root g₁ root₁)
    (second : Makes demand ρ g₁ root₁ g' root') : Makes demand ρ g root g' root' where
  tree := second.tree
  grows := first.grows.trans second.grows
  frames := first.frames.trans second.frames
  spares v has outside := by
    rw [second.spares v (first.grows.has v has) (outside.grown has first.grows),
      first.spares v has outside]
  suits := second.suits

end Makes

/-- A step that does not fail, in a document that goes on suiting. -/
def Completes {α : Type} (demand : Demand) (ρ : List String) (root : Value) (g : Graph) (x : Step α)
    (post : α → Graph → Prop) : Prop :=
  ∃ a g', x.run g = (.ok a, g') ∧ Makes demand ρ g root g' root ∧ post a g'

namespace Completes

variable {α β : Type} {x : Step α} {post : α → Graph → Prop}

theorem pure (tree : g.Treelike root) (suits : Suits demand g root) {a : α} (h : post a g) :
    Completes demand ρ root g (pure a) post :=
  ⟨a, g, rfl, .refl ρ tree suits, h⟩

theorem mono {post' : α → Graph → Prop} (h : Completes demand ρ root g x post)
    (weaker : ∀ a g', post a g' → post' a g') : Completes demand ρ root g x post' := by
  obtain ⟨a, g', run, makes, after⟩ := h
  exact ⟨a, g', run, makes, weaker a g' after⟩

theorem bind {k : α → Step β} {post' : β → Graph → Prop}
    (first : Completes demand ρ root g x post)
    (next : ∀ a g', g'.Treelike root → Suits demand g' root → post a g' →
      Completes demand ρ root g' (k a) post') : Completes demand ρ root g (x >>= k) post' := by
  obtain ⟨a, g₁, run, makes, h⟩ := first
  obtain ⟨b, g₂, run₂, makes₂, h₂⟩ := next a g₁ makes.tree makes.suits h
  exact ⟨b, g₂, by simp only [Running.run_bind, run, run₂], makes.trans makes₂, h₂⟩

/-- A step that stays within its frame succeeds if it does not fail, spares what is in no place, and leaves a
document that suits. -/
theorem of_within (within : Within ρ root g x post)
    (h : ∃ a, (x.run g).1 = .ok a ∧
      (∀ v, g.Has v → g.Outside root v → (x.run g).2.node v = g.node v) ∧
      Suits demand (x.run g).2 root) : Completes demand ρ root g x post := by
  obtain ⟨result, g', run, tree, grows, frames, after⟩ := within
  rw [run] at h
  obtain ⟨a, rfl, spares, suits⟩ := h
  exact ⟨a, g', run, ⟨tree, grows, frames, spares, suits⟩, after a rfl⟩

end Completes

/-- A step that makes what is missing succeeds, if what it makes is good for something that is asked of its place. -/
theorem Creates.suits {make : Step Value} {opens : Prop} {x : Except BindError Value × Graph}
    (creates : Creates make g v label opens x) (tree : g.Treelike root)
    (suits : Suits demand g root) (consistent : demand.Consistent) (arrives : g.along root π = some v)
    (open_ : opens) {b : Access} (asked : demand (π ++ [label]) b)
    (makes : ∃ c g₁, make.run g = (.ok c, g₁) ∧ g₁.Hosts c b) :
    ∃ c, x.1 = .ok c ∧ (∀ v, g.Has v → g.Outside root v → x.2.node v = g.node v) ∧
      Suits demand x.2 root := by
  obtain ⟨c', g', made, hosts⟩ := makes
  cases creates with
  | @found c slot value => exact ⟨c, rfl, fun _ _ _ => rfl, suits⟩
  | refused why =>
    obtain ⟨fault, failed⟩ := why open_
    rw [made] at failed
    cases failed
  | dropped why => exact absurd open_ why
  | @made c n g₁ g₂ _ node missing run adds empty put =>
    rw [made] at run
    cases run
    have continues := continues_of_missing empty (along_of_missing arrives missing)
    have changes := Changes.graft tree arrives node adds put continues
    refine ⟨c', rfl, changes.spares, suits.changes consistent tree changes fun u hu => .inr ⟨b, asked, ?_⟩⟩
    rw [(tree.grafts arrives node adds put continues).place, Option.some.injEq] at hu
    exact hu ▸ hosts.congr put.kind_eq

/-- A list that is filled up with nulls is good for what it was. -/
theorem Suits.filled (suits : Suits demand g root) (consistent : demand.Consistent)
    (tree : g.Treelike root) {id : NodeId} (arrives : g.along root π = some (.sequence .list id))
    {b : Access} (asked : demand π b) {index : Nat} (room : HasRoom (g.sequence id).items index) :
    let g' := g.setItems id (padded (g.sequence id).items index)
    (∀ v, g.Has v → g.Outside root v → g'.node v = g.node v) ∧ Suits demand g' root := by
  have hosts := (suits _ b _ asked arrives).resolve_left (by simp)
  have fill := setItems_padded_rewrites (tree.has_of_along arrives) room
  have nulls : ∀ label d, paddedAt (g.sequence id).items.length index label = some d →
      d = .null ∧ g.slot? (.sequence .list id) label = none :=
    fun label d h => ⟨eq_null_of_paddedAt h, itemAt_eq_none_of_paddedAt h⟩
  have changes := Changes.pad tree arrives (address_sequence _ _) fill nulls
  refine ⟨changes.spares, suits.changes consistent tree changes fun u hu => ?_⟩
  rcases (tree.pads arrives (address_sequence _ _) fill nulls).places π with same | ⟨absent, -⟩
  · rw [same, arrives, Option.some.injEq] at hu
    exact .inr ⟨b, asked, hu ▸ hosts.congr fill.kind_eq⟩
  · rw [arrives] at absent
    cases absent

/-- A sequence of a named segment gets long enough. -/
theorem Enlarges.suits {owner : Value} {s : Segment} {x : Except BindError Value × Graph}
    (enlarges : Enlarges g owner c s x) (roomy : s.Roomy) (tree : g.Treelike root)
    (suits : Suits demand g root) (consistent : demand.Consistent)
    (start : g.along root π = some owner) (arrives : g.along root (π ++ s.names) = some c)
    (named : s.name ≠ "") {b : Access}
    (asked : demand (π ++ s.names) b) :
    ∃ c, x.1 = .ok c ∧ (∀ v, g.Has v → g.Outside root v → x.2.node v = g.node v) ∧
      Suits demand x.2 root := by
  cases enlarges with
  | enough => exact ⟨c, rfl, fun _ _ _ => rfl, suits⟩
  | @filled id index hindex list =>
    subst list
    exact ⟨_, rfl, suits.filled consistent tree arrives asked (roomy.hasRoom hindex _)⟩
  | refused _ _ unnamed => exact absurd unnamed named
  | @replaced id id' index g₁ g₂ hindex array named names adds put =>
    subst array
    have hosts := (suits _ b _ asked arrives).resolve_left (by simp)
    rw [Segment.names_of_ne named] at arrives asked
    have continues := longer_continues arrives (roomy.hasRoom hindex _)
    have node := Value.address_of_holdsNames names
    have changes := Changes.graft tree start node adds put continues
    refine ⟨_, rfl, changes.spares, suits.changes consistent tree changes fun u hu => ?_⟩
    rw [(tree.grafts start node adds put continues).place, Option.some.injEq] at hu
    refine .inr ⟨b, asked, hu ▸ hosts.sequence ?_⟩
    rw [put.kind_eq, adds.node]
    rfl

/-! ## What is made is what is asked for -/

theorem elementType?_newSequence (g : Graph) (kind : SequenceKind) :
    (g.newSequence kind ⟨.any, []⟩).2.elementType? (g.newSequence kind ⟨.any, []⟩).1 = none := by
  have element : ((g.newSequence kind ⟨.any, []⟩).2.sequence g.sequences.next).element = .any :=
    congrArg Sequence.element (Store.get_push_next _ _)
  have type : (g.newSequence kind ⟨.any, []⟩).2.tagOf (g.newSequence kind ⟨.any, []⟩).1 =
      .sequence kind .any := congrArg (TypeTag.sequence kind) element
  rw [elementType?, type]
  rfl

theorem elementType?_newMap (g : Graph) :
    (g.newMap ⟨.any, .empty⟩).2.elementType? (g.newMap ⟨.any, .empty⟩).1 = none := by
  have element : ((g.newMap ⟨.any, .empty⟩).2.map g.maps.next).element = .any :=
    congrArg MapNode.element (Store.get_push_next _ _)
  have type : (g.newMap ⟨.any, .empty⟩).2.tagOf (g.newMap ⟨.any, .empty⟩).1 = .map .any :=
    congrArg TypeTag.map element
  rw [elementType?, type]
  rfl

theorem emptyCollection_hosts_slot (g : Graph) {s : Segment} {slot : Slot}
    (hslot : s.selector.slot? = some slot) :
    (emptyCollection g s.selector.bracket?).2.Hosts (emptyCollection g s.selector.bracket?).1
      (.slot slot) := by
  cases selector : s.selector with
  | plain =>
    rw [selector] at hslot
    cases hslot
  | element kind index =>
    rw [selector] at hslot
    obtain ⟨n, -, rfl⟩ := Option.map_eq_some_iff.1 hslot
    exact ⟨rfl, elementType?_newSequence g kind⟩
  | entry key =>
    rw [selector] at hslot
    obtain ⟨name, -, rfl⟩ := Option.map_eq_some_iff.1 hslot
    exact ⟨rfl, elementType?_newMap g⟩

theorem emptyCollection_hosts_name (g : Graph) (name : String) :
    (emptyCollection g none).2.Hosts (emptyCollection g none).1 (.name name) :=
  ⟨rfl, elementType?_newMap g⟩

/-- In front of a name a map is made. -/
theorem intermediate_hosts (g : Graph) (path : Path) {t : Segment} (named : t.name ≠ "") :
    ∃ c g₁, (intermediate .empty path none (some t)).run g = (.ok c, g₁) ∧
      g₁.Hosts c (.name t.name) := by
  refine ⟨_, _, ?_, emptyCollection_hosts_name g t.name⟩
  simp only [intermediate, Option.bind_some, named, if_false, Step.alloc_run]

/-- The access behind the name of a segment: the place in its brackets, or else the name of the next segment. -/
def onward? (s : Segment) (next : Option Segment) : Option Access :=
  (s.selector.slot?.map .slot).or (next.map fun t => .name t.name)

theorem newChild_hosts (g : Graph) (path : Path) {s : Segment} {next : Option Segment}
    (single : s.isWildcard = false) (named : ∀ t ∈ next, t.name ≠ "") {b : Access}
    (onward : onward? s next = some b) :
    ∃ c g₁, (newChild .empty path none s next).run g = (.ok c, g₁) ∧ g₁.Hosts c b := by
  unfold newChild
  by_cases collection : s.isCollection
  · obtain ⟨slot, hslot⟩ := slot?_of_single collection single
    obtain rfl : .slot slot = b := by simpa [onward?, hslot] using onward
    simp only [collection, if_true, Option.filter_none, Step.alloc_run]
    exact ⟨_, _, rfl, emptyCollection_hosts_slot g hslot⟩
  · have plain : s.isCollection = false := by simpa using collection
    rw [onward?, slot?_eq_none plain, Option.map_none, Option.none_or, Option.map_eq_some_iff] at onward
    obtain ⟨t, rfl, rfl⟩ := onward
    simp only [plain, Bool.false_eq_true, if_false]
    exact intermediate_hosts g path (named t rfl)

/-! ## The way along a path -/

section Way

variable (consistent : demand.Consistent) (tree : g.Treelike root) (suits : Suits demand g root)
  (path : Path) {s : Segment}

include consistent tree suits

theorem childOrCreate_completes {next : Option Segment} (single : s.isWildcard = false)
    (named : s.name ≠ "") (next_named : ∀ t ∈ next, t.name ≠ "") (onward : onward? s next = some b)
    (arrives : g.along root π = some v) (value : v ≠ .null) (asked : demand π (.name s.name))
    (asked' : demand (π ++ [s.name]) b) (front : π ++ s.names <+: ρ) :
    Completes demand ρ root g (childOrCreate .empty path v s next) fun c g' =>
      g'.along root π = some v ∧ g'.along root (π ++ s.names) = some c ∧ c ≠ .null ∧
        (s.name ≠ "" → v.holdsNames) := by
  have hosts := (suits π _ v asked arrives).resolve_left value
  have creates := childOrCreate_creates (tree.has_of_along arrives) path named next
  rw [hosts.childType?_eq_none] at creates
  exact .of_within (childOrCreate_within tree path next arrives value front)
    (creates.suits tree suits consistent arrives hosts.opens asked'
      (newChild_hosts g path single next_named onward))

theorem grow_completes {owner : Value} (roomy : s.Roomy) (named : s.name ≠ "")
    (names : owner.holdsNames) (start : g.along root π = some owner) (arrives : g.along root (π ++ s.names) = some c)
    (value : c ≠ .null) (asked : demand (π ++ s.names) b) (front : π ++ s.labels <+: ρ) :
    Completes demand ρ root g (grow .empty path owner s c) fun c' g' =>
      g'.along root π = some owner ∧ g'.along root (π ++ s.names) = some c' ∧ c' ≠ .null ∧
        ∀ n, s.selector.index? = some n → Addressable g' c' n :=
  .of_within (grow_within tree path roomy start arrives value (fun _ => names) front)
    ((grow_enlarges (tree.has_of_along arrives) (tree.has_of_along start) path fun _ => names).suits
      roomy tree suits consistent start arrives named asked)

theorem elementOrCreate_completes {slot : Slot} (hslot : s.selector.slot? = some slot) {t : Segment}
    (named : t.name ≠ "") (arrives : g.along root π = some c) (value : c ≠ .null)
    (addressable : ∀ n, s.selector.index? = some n → Addressable g c n)
    (asked : demand π (.slot slot)) (asked' : demand (π ++ [Graph.label slot]) (.name t.name))
    (front : π ++ [Graph.label slot] <+: ρ) :
    Completes demand ρ root g (elementOrCreate .empty path c s (some t)) fun w g' =>
      g'.along root (π ++ [Graph.label slot]) = some w ∧ w ≠ .null := by
  have hosts := (suits π _ c asked arrives).resolve_left value
  have takes := (takes_of_fits (.refl tree) hslot arrives addressable hosts.opens).2
  have creates := elementOrCreate_creates (tree.has_of_along arrives) path hslot (some t)
  rw [hosts.untyped] at creates
  exact .of_within (elementOrCreate_within tree path hslot (some t) arrives front)
    (creates.suits tree suits consistent arrives takes asked' (intermediate_hosts g path named))

theorem collect_completes {next : Option Segment} (single : s.isWildcard = false)
    (roomy : s.Roomy) (named : s.name ≠ "") (next_named : ∀ t ∈ next, t.name ≠ "") (onward : onward? s next = some b)
    (arrives : g.along root π = some v) (value : v ≠ .null) (asked : demand π (.name s.name))
    (asked' : demand (π ++ [s.name]) b) (front : π ++ s.labels <+: ρ) :
    Completes demand ρ root g (collect .empty path v s next) fun c g' =>
      g'.along root (π ++ s.names) = some c ∧ c ≠ .null ∧
        ∀ n, s.selector.index? = some n → Addressable g' c n := by
  refine .bind (childOrCreate_completes consistent tree suits path single named next_named onward arrives value
    asked asked' (names_front front)) fun c g₁ tree₁ suits₁ found => ?_
  obtain ⟨start, arrives₁, value₁, names⟩ := found
  exact (grow_completes consistent tree₁ suits₁ path roomy named (names named) start arrives₁ value₁
    (by rwa [Segment.names_of_ne named]) front).mono fun _ _ grown => grown.2

/-- A named segment is passed if others follow it. -/
theorem pass_completes {t : Segment} {others : List Segment} (single : s.isWildcard = false)
    (roomy : s.Roomy) (named : s.name ≠ "") (named_t : t.name ≠ "") (arrives : g.along root π = some v)
    (value : v ≠ .null)
    (covers : demand.Covers π (s.accesses ++ (t :: others).flatMap Segment.accesses)) (front : π ++ s.labels <+: ρ) :
    Completes demand ρ root g (pass .empty path v s (some t)) fun w g' =>
      g'.along root (π ++ s.labels) = some w ∧ w ≠ .null := by
  have behind := covers.behind
  rw [Segment.accesses, Segment.names_of_ne named] at covers
  have next_named : ∀ u ∈ some t, u.name ≠ "" := fun u same => Option.some.inj same ▸ named_t
  by_cases bracketed : s.isCollection
  case neg =>
    have none := slot?_eq_none (by simpa using bracketed)
    have labels : s.labels = s.names := by simp [Segment.labels, none]
    rw [labels, Segment.names_of_ne named] at behind
    rw [pass_of_plain (by simpa using bracketed), labels]
    exact (childOrCreate_completes consistent tree suits path single named next_named (by rw [onward?, none]; rfl)
      arrives value covers.head (behind.first_name named_t) (names_front front)).mono
        fun _ _ found => ⟨found.2.1, found.2.2.1⟩
  obtain ⟨slot, hslot⟩ := slot?_of_single bracketed single
  have labels : π ++ s.labels = π ++ s.names ++ [Graph.label slot] := by simp [Segment.labels, hslot]
  rw [hslot] at covers
  have asked : demand (π ++ [s.name]) (.slot slot) := covers.tail.head
  rw [pass_of_collection bracketed]
  refine .bind (collect_completes consistent tree suits path single roomy named next_named
    (by rw [onward?, hslot]; rfl) arrives value covers.head asked front) fun c g₁ tree₁ suits₁ found => ?_
  obtain ⟨arrives₁, value₁, addressable⟩ := found
  rw [labels] at behind front ⊢
  exact elementOrCreate_completes consistent tree₁ suits₁ path hslot named_t arrives₁ value₁ addressable
    (by rwa [Segment.names_of_ne named]) (behind.first_name named_t) front

/-- A walk along named segments does not fail in a document that suits them. -/
theorem ownerFrom_completes {segments : List Segment} (single : ∀ s ∈ segments, s.isWildcard = false)
    (roomy : ∀ s ∈ segments, s.Roomy) (named : ∀ s ∈ segments, s.name ≠ "") (arrives : g.along root π = some v)
    (value : v ≠ .null)
    (covers : demand.Covers π (segments.flatMap Segment.accesses))
    (front : π ++ segments.flatMap Segment.labels <+: ρ) :
    Completes demand ρ root g (ownerFrom .empty path v segments) fun _ _ => True := by
  induction segments generalizing v g π with
  | nil => exact .pure tree suits trivial
  | cons s rest ih =>
    have single_s := single s List.mem_cons_self
    have roomy_s := roomy s List.mem_cons_self
    have named_s := named s List.mem_cons_self
    rw [List.flatMap_cons, ← List.append_assoc] at front
    rw [List.flatMap_cons] at covers
    have front_s : π ++ s.labels <+: ρ := (List.prefix_append _ _).trans front
    cases rest with
    | nil =>
      rw [ownerFrom_last]
      by_cases bracketed : s.isCollection
      case neg =>
        rw [if_neg bracketed]
        exact .pure tree suits trivial
      obtain ⟨slot, hslot⟩ := slot?_of_single bracketed single_s
      rw [Segment.accesses, Segment.names_of_ne named_s, hslot] at covers
      rw [if_pos bracketed]
      exact .bind (collect_completes consistent tree suits path single_s roomy_s named_s
        (fun t none => by cases none) (by rw [onward?, hslot]; rfl) arrives value covers.head covers.tail.head front_s)
          fun _ _ tree₁ suits₁ _ => .pure tree₁ suits₁ trivial
    | cons t others =>
      rw [ownerFrom_cons (List.cons_ne_nil t others)]
      have named_t := named t (List.mem_cons_of_mem s List.mem_cons_self)
      refine .bind (pass_completes consistent tree suits path single_s roomy_s named_s named_t arrives
        value covers front_s) fun w g₁ tree₁ suits₁ found => ?_
      exact ih tree₁ suits₁ (fun u hu => single u (List.mem_cons_of_mem s hu))
        (fun u hu => roomy u (List.mem_cons_of_mem s hu))
        (fun u hu => named u (List.mem_cons_of_mem s hu)) found.1 found.2 covers.behind front

end Way

/-! ## The root -/

theorem MakesRoot.suits {w w' : Writer} {bracket : Option Bracket} (makes : MakesRoot w bracket w')
    (tree : w.graph.Treelike w.root) (suits : Suits demand w.graph w.root)
    (consistent : demand.Consistent) {b : Access} (asked : demand [] b)
    (hosts : (emptyCollection w.graph bracket).2.Hosts (emptyCollection w.graph bracket).1 b) :
    (∀ v, w.graph.Has v → w.graph.Outside w.root v → w'.graph.node v = w.graph.node v) ∧
      Suits demand w'.graph w'.root := by
  cases makes with
  | found => exact ⟨fun _ _ _ => rfl, suits⟩
  | made missing adds empty =>
    have changes := Changes.graft_root tree adds
      (continues_of_missing empty (.inr (by rw [missing]; rfl)))
    refine ⟨changes.spares, suits.changes consistent tree changes fun u hu => ?_⟩
    exact .inr ⟨b, asked, Option.some.inj hu ▸ hosts⟩

theorem EnlargesRoot.suits {w w' : Writer} {index : Nat} (enlarges : EnlargesRoot w index w')
    (fits : index + 1 < 2 ^ 64) (tree : w.graph.Treelike w.root) (suits : Suits demand w.graph w.root)
    (consistent : demand.Consistent) {b : Access} (asked : demand [] b) :
    (∀ v, w.graph.Has v → w.graph.Outside w.root v → w'.graph.node v = w.graph.node v) ∧
      Suits demand w'.graph w'.root := by
  cases enlarges with
  | enough => exact ⟨fun _ _ _ => rfl, suits⟩
  | @filled id list =>
    have arrives : w.graph.along w.root [] = some (.sequence .list id) := congrArg some list
    exact suits.filled consistent tree arrives asked fun _ => fits
  | @replaced id id' g₁ array adds =>
    have arrives : w.graph.along w.root [] = some (.sequence .array id) := congrArg some array
    have hosts := (suits _ b _ asked arrives).resolve_left (by simp)
    have changes := Changes.graft_root tree adds (longer_continues arrives fun _ => fits)
    refine ⟨changes.spares, suits.changes consistent tree changes fun u hu => ?_⟩
    refine .inr ⟨b, asked, Option.some.inj hu ▸ hosts.sequence ?_⟩
    rw [adds.node]
    rfl

/-- A path with brackets at its root opens an element of the root first. -/
theorem accesses_of_head_slot {path : Path} (wellFormed : path.WellFormed) {slot : Slot}
    (hslot : path.head.selector.slot? = some slot) :
    path.accesses = .slot slot :: path.tail.flatMap Segment.accesses := by
  have bracketed : path.head.isCollection := by
    by_contra plain
    simp [slot?_eq_none (by simpa using plain)] at hslot
  rw [Path.accesses, Path.followed_of_bracketed bracketed, List.flatMap_cons, Segment.accesses, hslot,
    Segment.names_of_eq wellFormed.head_name]
  rfl

/-- A root is made, or is found and is good for what is asked of it. -/
theorem ensureRoot_completes {w : Writer} (tree : w.graph.Treelike w.root)
    (suits : Suits demand w.graph w.root) (consistent : demand.Consistent) {s : Segment}
    (roomy : s.Roomy) {b : Access} (asked : demand [] b)
    (hosts : (emptyCollection w.graph s.selector.bracket?).2.Hosts
      (emptyCollection w.graph s.selector.bracket?).1 b)
    (front : ∀ n, s.selector.index? = some n → [Numeral.text n] <+: ρ) :
    ∃ root g', ensureRoot s w = (⟨⟩, { w with root, graph := g' }) ∧
      Makes demand ρ w.graph w.root g' root ∧ root ≠ .null ∧
      ∀ n, s.selector.index? = some n → Addressable g' root n := by
  obtain ⟨root, g', _, run, -, ahead, grows, value, addressable⟩ :=
    ensureRoot_alongside rfl (.refl tree) roomy
  have frames := ensureRoot_frames tree roomy front
  have kept : (∀ v, w.graph.Has v → w.graph.Outside w.root v →
      (ensureRoot s w).2.graph.node v = w.graph.node v) ∧
        Suits demand (ensureRoot s w).2.graph (ensureRoot s w).2.root := by
    obtain ⟨w₁, makes, more⟩ := ensureRoot_makes tree.has s
    obtain ⟨spares, suits₁⟩ := makes.suits tree suits consistent asked hosts
    rcases more with ⟨-, same⟩ | ⟨index, hindex, enlarges⟩
    · exact same ▸ ⟨spares, suits₁⟩
    obtain ⟨-, grows₁, tree₁⟩ := makes.frames (ρ := ρ) tree
    obtain ⟨spares₂, suits₂⟩ := enlarges.suits (roomy index hindex) tree₁ suits₁ consistent asked
    exact ⟨fun v has outside => (spares₂ v (grows₁.has v has) (outside.grown has grows₁)).trans
      (spares v has outside), suits₂⟩
  rw [run] at frames kept
  exact ⟨root, g', run, ⟨ahead.tree, grows, frames, kept.1, kept.2⟩, value, addressable⟩

/-- A path leads through a document that suits it. -/
theorem reach_completes {path : Path} (consistent : demand.Consistent) (wellFormed : path.WellFormed)
    (single : path.hasWildcard = false) (roomy : path.Roomy) (named : ∀ s ∈ path.tail, s.name ≠ "")
    (below : path.tail ≠ []) (tree : g.Treelike root) (suits : Suits demand g root) (value : root ≠ .null)
    (addressable : ∀ n, path.head.selector.index? = some n → Addressable g root n)
    (covers : demand.Covers [] path.accesses) :
    Completes demand path.route root g (reach .empty path root) fun _ _ => True := by
  have single_tail := fun s hs => Path.single_of_mem single (s := s) (List.mem_cons_of_mem _ hs)
  have roomy_tail := fun s hs => roomy s (List.mem_cons_of_mem _ hs)
  unfold reach
  by_cases bracketed : path.head.isCollection
  · obtain ⟨slot, hslot⟩ := slot?_of_single bracketed (Path.single_of_mem single List.mem_cons_self)
    have route := route_of_head_slot wellFormed hslot
    rw [accesses_of_head_slot wellFormed hslot] at covers
    obtain ⟨t, others, tail⟩ := List.exists_cons_of_ne_nil below
    have named_t := named t (tail ▸ List.mem_cons_self)
    rw [if_pos bracketed, show path.tail.head? = some t by rw [tail]; rfl]
    refine .bind (elementOrCreate_completes consistent tree suits path hslot named_t (along_nil _ _) value
      addressable covers.head ((tail ▸ covers.tail).first_name named_t) (route ▸ List.prefix_append _ _))
      fun start g₁ tree₁ suits₁ found => ?_
    exact ownerFrom_completes consistent tree₁ suits₁ path single_tail roomy_tail named found.1 found.2 covers.tail
      (route ▸ List.prefix_rfl)
  · have followed := Path.followed_of_plain bracketed
    rw [Path.accesses, followed] at covers
    rw [if_neg bracketed, pure_bind]
    exact ownerFrom_completes consistent tree suits path single_tail roomy_tail named (along_nil _ _) value covers
      (by rw [Path.route, followed]; exact List.prefix_rfl)

/-- A root of a path is asked for what the path goes through first. -/
theorem exists_rootAccess {path : Path} (wellFormed : path.WellFormed) (single : path.hasWildcard = false)
    (named : ∀ s ∈ path.tail, s.name ≠ "") (more : path.followed ≠ [])
    (covers : demand.Covers [] path.accesses) (g : Graph) :
    ∃ b, demand [] b ∧ (emptyCollection g path.head.selector.bracket?).2.Hosts
      (emptyCollection g path.head.selector.bracket?).1 b := by
  by_cases bracketed : path.head.isCollection
  · obtain ⟨slot, hslot⟩ := slot?_of_single bracketed (Path.single_of_mem single List.mem_cons_self)
    rw [accesses_of_head_slot wellFormed hslot] at covers
    exact ⟨.slot slot, covers.head, emptyCollection_hosts_slot g hslot⟩
  · have followed := Path.followed_of_plain bracketed
    obtain ⟨t, others, tail⟩ := List.exists_cons_of_ne_nil (followed ▸ more)
    rw [Path.accesses, followed, tail] at covers
    have none : path.head.selector.bracket? = none := by simpa [Segment.isCollection] using bracketed
    exact ⟨.name t.name, covers.first_name (named t (tail ▸ List.mem_cons_self)),
      none ▸ emptyCollection_hosts_name g t.name⟩

/-- A path can be prepared in a document that suits it. -/
theorem prepare_completes {path : Path} (wellFormed : path.WellFormed)
    (single : path.hasWildcard = false) (roomy : path.Roomy) (named : ∀ s ∈ path.tail, s.name ≠ "")
    (more : path.followed ≠ []) {w : Writer} (tree : w.graph.Treelike w.root)
    (suits : Suits demand w.graph w.root) (consistent : demand.Consistent)
    (covers : demand.Covers [] path.accesses) :
    ∃ owner root g', (prepare .empty path).run w = (.ok owner, { w with root, graph := g' }) ∧
      Makes demand path.route w.graph w.root g' root ∧ root ≠ .null ∧
      Prepared g' root path owner := by
  obtain ⟨result, root, g', run, tree', grows, value, frames, prepared⟩ :=
    prepare_within wellFormed single roomy tree
  suffices h : (∃ owner, result = .ok owner) ∧ Makes demand path.route w.graph w.root g' root by
    obtain ⟨⟨owner, rfl⟩, makes⟩ := h
    exact ⟨owner, root, g', run, makes, value, prepared owner rfl⟩
  obtain ⟨b, asked, hosts⟩ := exists_rootAccess wellFormed single named more covers w.graph
  obtain ⟨root₁, g₁, run₁, makes₁, value₁, addressable⟩ :=
    ensureRoot_completes (ρ := path.route) tree suits consistent (roomy _ List.mem_cons_self) asked hosts
      fun n hn => by
      rw [route_of_head_slot wellFormed (slot?_of_index? hn)]
      exact List.prefix_append _ _
  by_cases atRoot : path.tail = []
  · rw [prepare_of_root single atRoot run₁] at run
    cases run
    exact ⟨⟨none, rfl⟩, makes₁⟩
  · obtain ⟨owner, g₂, run₂, makes₂, -⟩ := reach_completes consistent wellFormed single roomy named atRoot
      makes₁.tree makes₁.suits value₁ addressable covers
    rw [prepare_of_reach single atRoot run₁ run₂] at run
    cases run
    exact ⟨⟨some owner, rfl⟩, makes₁.trans makes₂⟩

end Writer

end FieldBinding
