import FieldBinding.Proofs.Writing.Steps

/-!
# Entries that outlive what they were prepared for

While other paths are prepared, a queued entry may lose what was prepared for it: an index that no sequence can take
cuts its list off, or puts an empty array in the place of its array.  Until then a path only gets what it lacks, so
such a loss can be told from the paths in the queue.  `Writer.Parked` is what is left to an entry at any time: its
owner and what the owner holds are at home, and an array that is in the place of its collection is large enough, unless
another entry of the queue has an index for the same place that is too large.

Main results:

* `Writer.prepare_settles` — what a path that is prepared has changed: first what it lacks is made, then its last place
  is opened.
* `Writer.Parked.advanced`, `Writer.Parked.opened` — both leave an entry of the queue parked.
-/

namespace FieldBinding

open FieldBinding.Graph

variable {g g₁ g' : Graph} {root root₁ root' : Value}

namespace Graph

/-- A document has grown into another, and every node has stayed at home. -/
structure Advances (g : Graph) (root : Value) (g' : Graph) (root' : Value) : Prop where
  inherits : g.Inherits root g' root'
  grows : g.Grows root g' root'

theorem Advances.refl (tree : g.Treelike root) : g.Advances root g root :=
  ⟨.refl tree, .refl g root⟩

theorem Advances.trans (first : g.Advances root g₁ root₁) (second : g₁.Advances root₁ g' root') :
    g.Advances root g' root' :=
  ⟨first.inherits.trans second.inherits, first.grows.trans second.grows⟩

theorem Advances.of_extends (tree : g.Treelike root) (more : g.Extends g') (closed : g'.Closed) :
    g.Advances root g' root :=
  ⟨.of_extends tree more closed, .of_extends tree more⟩

end Graph

namespace Writer

/-! ## Nodes stay at home -/

theorem Creates.inherits {make : Step Value} {v c : Value} {label : String} {opens : Prop}
    (creates : Creates make g v label opens (.ok c, g')) (tree : g.Treelike root) {π : List String}
    (arrives : g.along root π = some v) : g.Inherits root g' root := by
  cases creates with
  | found => exact .refl tree
  | made _ _ _ _ adds empty put => exact .graft tree arrives adds put fun other d slot => by simp [empty] at slot

/-- What a longer array holds was below its place, whether the elements have been cut off or not. -/
theorem along_of_longer {π : List String} {id : NodeId} {index : Nat} {label : String} {d : Value}
    (arrives : g.along root π = some (.sequence .array id))
    (slot : (Node.sequence (longer g id index)).slot? label = some d) (value : d ≠ .null) :
    g.along root (π ++ [label]) = some d := by
  rw [along_concat, arrives, Option.bind_some]
  exact (itemAt_of_padded slot).resolve_left value

theorem Enlarges.inherits {owner c c' : Value} {s : Segment} (enlarges : Enlarges g owner c s (.ok c', g'))
    (tree : g.Treelike root) {π : List String} (start : g.along root π = some owner)
    (arrives : g.along root (π ++ s.names) = some c) : g.Inherits root g' root := by
  cases enlarges with
  | enough => exact .refl tree
  | filled _ list =>
    subst list
    exact .resize tree (setItems_padded_resizes (tree.has_of_along arrives) _)
  | replaced _ array named _ adds put =>
    subst array
    rw [Segment.names_of_ne named] at arrives
    exact .graft tree start adds put fun _ _ => along_of_longer arrives

theorem MakesRoot.inherits {w w' : Writer} {bracket : Option Bracket} (makes : MakesRoot w bracket w')
    (tree : w.graph.Treelike w.root) : w.graph.Inherits w.root w'.graph w'.root := by
  cases makes with
  | found => exact .refl tree
  | made _ adds empty => exact .graft_root tree adds fun other d slot => by simp [empty] at slot

theorem EnlargesRoot.inherits {w w' : Writer} {index : Nat} (enlarges : EnlargesRoot w index w')
    (tree : w.graph.Treelike w.root) : w.graph.Inherits w.root w'.graph w'.root := by
  cases enlarges with
  | enough => exact .refl tree
  | filled list =>
    have has := tree.has
    rw [list] at has ⊢
    exact .resize (list ▸ tree) (setItems_padded_resizes has _)
  | replaced array adds =>
    rw [array]
    exact .graft_root (array ▸ tree) adds fun _ _ => along_of_longer (along_nil _ _)

/-! ## Room that there must have been -/

/-- A value that has children under names is known by its address. -/
theorem eq_of_holdsNames {v w : Value} (names : v.holdsNames) (same : v.address? = w.address?) : v = w := by
  cases v <;> cases w <;> simp_all [Value.holdsNames, Value.address?]

theorem address_ne_of_holdsNames {v : Value} (names : v.holdsNames) (kind : SequenceKind) (id : NodeId) :
    v.address? ≠ (Value.sequence kind id).address? := by
  cases v <;> simp_all [Value.holdsNames, Value.address?]

/-- The elements of an array that has been put into a slot. -/
theorem sequence_of_put {id id' : NodeId} {owner : Value} {index : Nat} {sets : String → Option Value}
    (adds : g.Adds g₁ (.sequence .array id') (.sequence (longer g id index))) (names : owner.holdsNames)
    (put : g₁.Rewrites g' owner sets) : g'.sequence id' = longer g id index := by
  have node := put.kept (.sequence .array id') (address_ne_of_holdsNames names .array id').symm
  rw [adds.node] at node
  exact Node.sequence.inj node

theorem EnlargesRoot.has {w w' : Writer} {n : Nat} (enlarges : EnlargesRoot w n w') (has : w.graph.Has w.root) :
    w'.graph.Has w'.root := by
  cases enlarges with
  | enough => exact has
  | filled => exact (w.graph.setItems_has _ _ _).2 has
  | replaced _ adds => exact (adds.has _).2 (.inr rfl)

theorem has_withRootPlace {w : Writer} (has : w.graph.Has w.root) (slot : Slot) :
    (w.withRootPlace slot).graph.Has (w.withRootPlace slot).root := by
  cases slot with
  | key key => exact has
  | index n => exact (growRoot_enlarges has n).has has

/-- If an index is addressable in the end, then there was room for it. -/
theorem Enlarges.room {owner c c' : Value} {s : Segment} {n : Nat} (enlarges : Enlarges g owner c s (.ok c', g'))
    (has : g.Has c) (hindex : s.selector.index? = some n) (addressable : Addressable g' c' n) : RoomIn g c n := by
  rintro kind id rfl
  cases enlarges with
  | enough => exact fun short => absurd (addressable kind id rfl) (Nat.not_lt_of_le short)
  | filled same list =>
    obtain rfl := Option.some.inj (hindex.symm.trans same)
    cases list
    have bound := addressable .list id rfl
    rwa [sequence_setItems has, lt_length_padded_iff] at bound
  | replaced same array named names adds put =>
    obtain rfl := Option.some.inj (hindex.symm.trans same)
    cases array
    have bound := addressable .array _ rfl
    rwa [sequence_of_put adds names put, longer, lt_length_padded_iff] at bound

theorem EnlargesRoot.room {w w' : Writer} {n : Nat} (enlarges : EnlargesRoot w n w') (has : w.graph.Has w.root)
    (addressable : Addressable w'.graph w'.root n) : RoomIn w.graph w.root n := by
  intro kind id root
  cases enlarges with
  | enough => exact fun short => absurd (addressable kind id root) (Nat.not_lt_of_le short)
  | filled list =>
    obtain ⟨rfl, rfl⟩ := Value.sequence.inj (root.symm.trans list)
    have bound := addressable .list id root
    rw [root] at has
    rwa [sequence_setItems has, lt_length_padded_iff] at bound
  | replaced array adds =>
    obtain ⟨rfl, rfl⟩ := Value.sequence.inj (root.symm.trans array)
    have bound := addressable .array _ rfl
    rwa [Node.sequence.inj adds.node, longer, lt_length_padded_iff] at bound

theorem Enlarges.has {owner c c' : Value} {s : Segment} (enlarges : Enlarges g owner c s (.ok c', g'))
    (has : g.Has c) : g'.Has c' := by
  cases enlarges with
  | enough => exact has
  | filled => exact (g.setItems_has _ _ _).2 has
  | replaced _ _ _ _ adds put => exact (put.has _).2 ((adds.has _).2 (.inr rfl))

theorem addressable_of_takes {c : Value} {n : Nat} (takes : g.Takes c (.index n)) : Addressable g c n := by
  rintro kind id rfl
  have slot := takes.2.resolve_left (by simp [Value.holdsNames])
  rwa [label, slot?_sequence_text, isSome_getElem?] at slot

/-- An element that has been found or made has an index that is addressable. -/
theorem addressable_of_element {path : Path} {c w : Value} {s : Segment} {n : Nat} {next : Option Segment}
    (has : g.Has c) (hindex : s.selector.index? = some n)
    (run : (elementOrCreate .empty path c s next).run g = (.ok w, g')) : Addressable g c n := by
  have creates := elementOrCreate_creates has path (slot?_of_index? hindex) next
  rw [run] at creates
  cases creates with
  | found slot =>
    rintro kind id rfl
    have there := Option.isSome_iff_exists.2 ⟨w, slot⟩
    rwa [label, slot?_sequence_text, isSome_getElem?] at there
  | made takes => exact addressable_of_takes takes

theorem isCollection_of_index? {s : Segment} {n : Nat} (hindex : s.selector.index? = some n) : s.isCollection := by
  by_contra plain
  have none := slot?_eq_none (by simpa using plain)
  simp [slot?_of_index? hindex] at none

/-! ## The way to the owner -/

theorem childOrCreate_advances (tree : g.Treelike root) {path : Path} {π : List String} {v c : Value}
    {s : Segment} {next : Option Segment} (arrives : g.along root π = some v) (value : v ≠ .null)
    (run : (childOrCreate .empty path v s next).run g = (.ok c, g')) :
    g.Advances root g' root ∧ g'.along root π = some v ∧ g'.along root (π ++ s.names) = some c ∧ c ≠ .null ∧
      (s.name ≠ "" → v.holdsNames) := by
  obtain ⟨_, _, same, -, grows, -, post⟩ := childOrCreate_within tree path next arrives value List.prefix_rfl
  obtain ⟨rfl, rfl⟩ := Prod.mk.inj (run.symm.trans same)
  refine ⟨⟨?_, grows⟩, post c rfl⟩
  by_cases named : s.name = ""
  · rw [(ChildRun.unnamed named).run_eq] at run
    cases run
    exact .refl tree
  · have creates := childOrCreate_creates (tree.has_of_along arrives) path named next
    rw [run] at creates
    exact creates.inherits tree arrives

theorem elementOrCreate_advances (tree : g.Treelike root) {path : Path} {π : List String} {c w : Value}
    {s : Segment} {slot : Slot} {next : Option Segment} (hslot : s.selector.slot? = some slot)
    (arrives : g.along root π = some c) (run : (elementOrCreate .empty path c s next).run g = (.ok w, g')) :
    g.Advances root g' root ∧ g'.along root (π ++ [label slot]) = some w ∧ w ≠ .null := by
  obtain ⟨_, _, same, -, grows, -, post⟩ := elementOrCreate_within tree path hslot next arrives List.prefix_rfl
  obtain ⟨rfl, rfl⟩ := Prod.mk.inj (run.symm.trans same)
  have creates := elementOrCreate_creates (tree.has_of_along arrives) path hslot next
  rw [run] at creates
  exact ⟨⟨creates.inherits tree arrives, grows⟩, post w rfl⟩

/-- A segment that is passed leaves every node at home: there must have been room for its index. -/
theorem pass_advances (tree : g.Treelike root) {path : Path} {π : List String} {v w : Value} {s : Segment}
    {next : Option Segment} (single : s.isWildcard = false) (arrives : g.along root π = some v) (value : v ≠ .null)
    (run : (pass .empty path v s next).run g = (.ok w, g')) :
    g.Advances root g' root ∧ g'.along root (π ++ s.labels) = some w ∧ w ≠ .null := by
  by_cases bracketed : s.isCollection
  case neg =>
    have plain : s.isCollection = false := by simpa using bracketed
    have labels : s.labels = s.names := by simp [Segment.labels, slot?_eq_none plain]
    rw [pass_of_plain plain] at run
    obtain ⟨advances, -, found, w_value, -⟩ := childOrCreate_advances tree arrives value run
    exact ⟨advances, labels ▸ found, w_value⟩
  obtain ⟨slot, hslot⟩ := slot?_of_single bracketed single
  have labels : π ++ s.labels = π ++ s.names ++ [label slot] := by simp [Segment.labels, hslot]
  rw [pass_of_collection bracketed] at run
  obtain ⟨c₂, g₂, collected, element⟩ := Running.run_bind_ok run
  obtain ⟨c₁, g₁, child, grown⟩ := Running.run_bind_ok collected
  obtain ⟨first, start, arrives₁, value₁, names⟩ := childOrCreate_advances tree arrives value child
  have tree₁ := first.inherits.tree
  have has₁ := tree₁.has_of_along arrives₁
  have enlarges := grow_enlarges has₁ (tree₁.has_of_along start) path names
  rw [grown] at enlarges
  have inherits := enlarges.inherits tree₁ start arrives₁
  have room : ∀ n, s.selector.index? = some n → RoomIn g₁ c₁ n := fun n hindex =>
    enlarges.room has₁ hindex (addressable_of_element (enlarges.has has₁) hindex element)
  obtain ⟨_, _, _, same, -, -, grows, post⟩ :=
    grow_alongside (.refl tree₁) start arrives₁ value₁ room names fun _ => rfl
  obtain ⟨rfl, rfl⟩ := Prod.mk.inj (grown.symm.trans same)
  obtain ⟨-, arrives₂, -, -⟩ := post c₂ rfl
  obtain ⟨last, found, w_value⟩ := elementOrCreate_advances inherits.tree hslot arrives₂ element
  rw [labels]
  exact ⟨first.trans (.trans ⟨inherits, grows⟩ last), found, w_value⟩

/-- What happens at the end of the way: nothing, or the collection of the last segment is made large enough, or cut off
where there is no room for its index. -/
inductive Opens (g : Graph) (root : Value) (π : List String) (owner : Value) (s : Segment) : Graph → Prop
  | plain (plain : s.isCollection = false) : Opens g root π owner s g
  | grown {c c' : Value} {g' : Graph} (bracketed : s.isCollection) (arrives : g.along root (π ++ s.names) = some c)
      (value : c ≠ .null) (names : s.name ≠ "" → owner.holdsNames) (enlarges : Enlarges g owner c s (.ok c', g')) :
      Opens g root π owner s g'

theorem ownerFrom_opens (path : Path) {π : List String} {v owner : Value} {segments : List Segment}
    (single : ∀ s ∈ segments, s.isWildcard = false) (nonempty : segments ≠ []) (tree : g.Treelike root)
    (arrives : g.along root π = some v) (value : v ≠ .null)
    (run : (ownerFrom .empty path v segments).run g = (.ok owner, g')) :
    ∃ g₁, g.Advances root g₁ root ∧
      g₁.along root (π ++ segments.dropLast.flatMap Segment.labels) = some owner ∧ owner ≠ .null ∧
      Opens g₁ root (π ++ segments.dropLast.flatMap Segment.labels) owner (segments.getLast nonempty) g' := by
  induction segments generalizing v g π with
  | nil => exact absurd rfl nonempty
  | cons s rest ih =>
    by_cases last : rest = []
    · subst last
      rw [ownerFrom_last] at run
      rw [List.dropLast_singleton, List.flatMap_nil, List.append_nil, List.getLast_singleton]
      by_cases bracketed : s.isCollection
      case neg =>
        rw [if_neg bracketed] at run
        cases run
        exact ⟨_, .refl tree, arrives, value, .plain (by simpa using bracketed)⟩
      rw [if_pos bracketed] at run
      obtain ⟨c₂, g₂, collected, stops⟩ := Running.run_bind_ok run
      cases stops
      obtain ⟨c₁, g₁, child, grown⟩ := Running.run_bind_ok collected
      obtain ⟨first, start, arrives₁, value₁, names⟩ := childOrCreate_advances tree arrives value child
      have tree₁ := first.inherits.tree
      have enlarges := grow_enlarges (tree₁.has_of_along arrives₁) (tree₁.has_of_along start) path names
      rw [grown] at enlarges
      exact ⟨g₁, first, start, value, .grown bracketed arrives₁ value₁ names enlarges⟩
    rw [ownerFrom_cons last] at run
    obtain ⟨w, g₁, passed, goes⟩ := Running.run_bind_ok run
    obtain ⟨first, found, w_value⟩ := pass_advances tree (single s List.mem_cons_self) arrives value passed
    obtain ⟨g₂, others, arrives₂, owner_value, opens⟩ := ih (fun t ht => single t (List.mem_cons_of_mem s ht)) last
      first.inherits.tree found w_value goes
    rw [List.append_assoc, ← List.flatMap_cons, ← List.dropLast_cons_of_ne_nil last] at arrives₂ opens
    rw [List.getLast_cons last]
    exact ⟨g₂, first.trans others, arrives₂, owner_value, opens⟩

theorem reach_opens {path : Path} {owner : Value} (wellFormed : path.WellFormed) (single : path.hasWildcard = false)
    (below : path.tail ≠ []) (tree : g.Treelike root) (value : root ≠ .null)
    (run : (reach .empty path root).run g = (.ok owner, g')) :
    ∃ g₁, g.Advances root g₁ root ∧ g₁.along root path.ownerRoute = some owner ∧ owner ≠ .null ∧
      Opens g₁ root path.ownerRoute owner path.last g' := by
  have single_tail := fun s hs => Path.single_of_mem single (s := s) (List.mem_cons_of_mem _ hs)
  rw [Path.last_of_below below]
  unfold reach at run
  by_cases bracketed : path.head.isCollection
  · obtain ⟨slot, hslot⟩ := slot?_of_single bracketed (Path.single_of_mem single List.mem_cons_self)
    have labels : path.head.labels = [label slot] := by
      simp [Segment.labels, Segment.names_of_eq wellFormed.head_name, hslot]
    have route : path.ownerRoute = [label slot] ++ path.tail.dropLast.flatMap Segment.labels := by
      rw [Path.ownerRoute, Path.followed_of_bracketed bracketed, List.dropLast_cons_of_ne_nil below, List.flatMap_cons,
        labels]
    rw [if_pos bracketed] at run
    obtain ⟨start, g₁, element, goes⟩ := Running.run_bind_ok run
    obtain ⟨first, found, start_value⟩ := elementOrCreate_advances tree hslot (along_nil _ _) element
    obtain ⟨g₂, others, arrives, owner_value, opens⟩ :=
      ownerFrom_opens path single_tail below first.inherits.tree found start_value goes
    rw [route]
    exact ⟨g₂, first.trans others, arrives, owner_value, opens⟩
  · have route : path.ownerRoute = path.tail.dropLast.flatMap Segment.labels := by
      rw [Path.ownerRoute, Path.followed_of_plain bracketed]
    rw [if_neg bracketed, pure_bind] at run
    rw [route]
    exact ownerFrom_opens path single_tail below tree (along_nil _ _) value run

/-! ## The root -/

theorem MakesRoot.advances {w w' : Writer} {bracket : Option Bracket} (makes : MakesRoot w bracket w')
    (tree : w.graph.Treelike w.root) : w.graph.Advances w.root w'.graph w'.root :=
  ⟨makes.inherits tree, (makes.frames (ρ := []) tree).2.1⟩

theorem MakesRoot.value {w w' : Writer} {bracket : Option Bracket} (makes : MakesRoot w bracket w') :
    w'.root ≠ .null := by
  cases makes with
  | found value => exact value
  | made _ adds _ =>
    intro null
    have new := adds.new
    rw [show (emptyCollection w.graph bracket).1 = .null from null] at new
    exact new trivial

theorem EnlargesRoot.value {w w' : Writer} {n : Nat} (enlarges : EnlargesRoot w n w') (value : w.root ≠ .null) :
    w'.root ≠ .null := by
  cases enlarges with
  | enough => exact value
  | filled => exact value
  | replaced => exact Value.noConfusion

theorem EnlargesRoot.advances {w w' : Writer} {n : Nat} (enlarges : EnlargesRoot w n w')
    (tree : w.graph.Treelike w.root) (room : RoomIn w.graph w.root n) :
    w.graph.Advances w.root w'.graph w'.root := by
  refine ⟨enlarges.inherits tree, ?_⟩
  cases enlarges with
  | enough => exact .refl _ _
  | filled list =>
    have has := tree.has
    have change := setItems_padded_rewrites (list ▸ has) (room _ _ list)
    exact (tree.pads (along_nil _ _) (list ▸ address_sequence _ _) (list.symm ▸ change) fun label d h =>
      ⟨eq_null_of_paddedAt h, list ▸ itemAt_eq_none_of_paddedAt h⟩).grows
  | replaced array adds =>
    have arrives : w.graph.along w.root [] = some (.sequence .array _) := congrArg some array
    exact (tree.grafts_root adds (longer_continues arrives (room _ _ array))).grows (.inr (.inr ⟨_, _, arrives, rfl⟩))

/-- What happens at the end of a preparation. -/
inductive Settles (path : Path) (w : Writer) : Option Value → Writer → Prop
  | root (atRoot : path.tail = []) (plain : path.last.selector.index? = none) : Settles path w none w
  | grown {n : Nat} {w' : Writer} (atRoot : path.tail = []) (hindex : path.last.selector.index? = some n)
      (enlarges : EnlargesRoot w n w') : Settles path w none w'
  | below {owner : Value} {g' : Graph} (below : path.tail ≠ []) (value : owner ≠ .null)
      (arrives : w.graph.along w.root path.ownerRoute = some owner)
      (opens : Opens w.graph w.root path.ownerRoute owner path.last g') :
      Settles path w (some owner) { w with graph := g' }

/-- Preparing a path makes what it lacks, and opens its last place in the end. -/
theorem prepare_settles {path : Path} (wellFormed : path.WellFormed) {w w' : Writer} {owner : Option Value}
    (tree : w.graph.Treelike w.root) (run : (prepare .empty path).run w = (.ok owner, w')) :
    path.hasWildcard = false ∧
      ∃ w₁, w.graph.Advances w.root w₁.graph w₁.root ∧ w₁.root ≠ .null ∧ Settles path w₁ owner w' := by
  by_cases wild : path.hasWildcard
  · rw [prepare_of_wild .empty wild] at run
    cases run
  have single : path.hasWildcard = false := by simpa using wild
  refine ⟨single, ?_⟩
  obtain ⟨w₁, makes, ensured⟩ := ensureRoot_makes tree.has path.head
  have first := makes.advances tree
  by_cases atRoot : path.tail = []
  · rw [prepare_of_root single atRoot rfl] at run
    cases run
    have last := Path.last_of_root atRoot
    rcases ensured with ⟨plain, same⟩ | ⟨n, hindex, enlarges⟩
    · exact ⟨w₁, first, makes.value, same ▸ .root atRoot (last ▸ plain)⟩
    · exact ⟨w₁, first, makes.value, .grown atRoot (last ▸ hindex) enlarges⟩
  generalize hreach : (reach .empty path (ensureRoot path.head w).2.root).run (ensureRoot path.head w).2.graph = reached
    at run
  obtain ⟨e | v, g₂⟩ := reached
  · rw [prepare_of_reach single atRoot rfl hreach] at run
    cases run
  rw [prepare_of_reach single atRoot rfl hreach] at run
  cases run
  obtain ⟨second, value₂⟩ : w₁.graph.Advances w₁.root (ensureRoot path.head w).2.graph (ensureRoot path.head w).2.root ∧
      (ensureRoot path.head w).2.root ≠ .null := by
    have tree₁ := first.inherits.tree
    rcases ensured with ⟨-, same⟩ | ⟨n, hindex, enlarges⟩
    · rw [same]
      exact ⟨.refl tree₁, makes.value⟩
    -- the way goes on at an element of the root, so there has been room for its index
    have bracketed := isCollection_of_index? hindex
    unfold reach at hreach
    rw [if_pos bracketed] at hreach
    obtain ⟨start, g₁, element, -⟩ := Running.run_bind_ok hreach
    have tree₂ := (enlarges.inherits tree₁).tree
    have room := enlarges.room tree₁.has (addressable_of_element tree₂.has hindex element)
    exact ⟨enlarges.advances tree₁ room, enlarges.value makes.value⟩
  obtain ⟨g₁, third, arrives, owner_value, opens⟩ :=
    reach_opens wellFormed single atRoot second.inherits.tree value₂ hreach
  exact ⟨{ (ensureRoot path.head w).2 with graph := g₁ }, first.trans (second.trans third), value₂,
    .below atRoot owner_value arrives opens⟩

/-! ## Entries of the queue -/

/-- The owner of a path: it and what it holds are at home. -/
structure Owns (g : Graph) (root : Value) (path : Path) (owner : Value) : Prop where
  below : path.tail ≠ []
  value : owner ≠ .null
  housed : g.Housed root path.ownerRoute owner
  names : path.last.isCollection → path.last.name ≠ "" → owner.holdsNames

/-- An entry is for the root, or has an owner. -/
structure Seated (g : Graph) (root : Value) (e : PendingWrite) : Prop where
  wellFormed : e.field.path.WellFormed
  atRoot : e.owner = none → e.field.path.tail = []
  owner : ∀ owner, e.owner = some owner → Owns g root e.field.path owner

/-- The owner of an entry, if it has one, is in its place. -/
def Anchored (g : Graph) (root : Value) (e : PendingWrite) : Prop :=
  ∀ owner, e.owner = some owner → g.along root e.field.path.ownerRoute = some owner

/-- The collection of an entry: the root, or the child of its owner. -/
def collection (g : Graph) (root : Value) (e : PendingWrite) : Option Value :=
  match e.owner with
  | none => some root
  | some owner => g.along owner e.field.path.last.names

/-- The array of an entry whose owner is in its place is large enough for the index of the entry. -/
def Fits (g : Graph) (root : Value) (e : PendingWrite) : Prop :=
  ∀ n, e.field.path.last.selector.index? = some n → Anchored g root e →
    ∃ c, collection g root e = some c ∧ c ≠ .null ∧ ∀ id, c = .sequence .array id → n < (g.sequence id).items.length

/-- An entry has an index for the collection of another that is too large for any sequence to be made longer for it. -/
def Thwarts (b e : PendingWrite) : Prop :=
  b.owner = e.owner ∧ b.field.path.last.name = e.field.path.last.name ∧
    ∃ n, b.field.path.last.selector.index? = some n ∧ ¬n + 1 < 2 ^ 64

/-- What is left to an entry of the queue, whatever is prepared after it. -/
structure Parked (zone : Zone) (queue : List PendingWrite) (g : Graph) (root : Value) (e : PendingWrite) : Prop where
  seated : Seated g root e
  single : e.field.path.hasWildcard = false
  has : g.Has e.field.value
  outside : g.Outside root e.field.value
  settled : ∀ k : Graph, coerced k zone e.field e.target = e.field.value
  fits : Fits g root e ∨ ∃ b ∈ queue, Thwarts b e

variable {zone : Zone} {queue : List PendingWrite} {e : PendingWrite}

theorem Owns.inherited {path : Path} {owner : Value} (owns : Owns g root path owner)
    (inherits : g.Inherits root g' root') : Owns g' root' path owner where
  below := owns.below
  value := owns.value
  housed := inherits.housed _ _ owns.housed
  names := owns.names

namespace Seated

theorem inherited (seated : Seated g root e) (inherits : g.Inherits root g' root') : Seated g' root' e where
  wellFormed := seated.wellFormed
  atRoot := seated.atRoot
  owner owner howner := (seated.owner owner howner).inherited inherits

/-- An owner that is in its place was there before. -/
theorem anchored (seated : Seated g root e) (inherits : g.Inherits root g' root')
    (anchored : Anchored g' root' e) : Anchored g root e := fun owner howner =>
  have owns := seated.owner owner howner
  inherits.old _ owner (anchored owner howner) owns.housed.home.has owns.value

theorem collection_eq (seated : Seated g root e) (bracketed : e.field.path.last.isCollection)
    (anchored : Anchored g root e) : collection g root e = g.along root e.field.path.holderRoute := by
  unfold collection
  cases howner : e.owner with
  | none => rw [seated.wellFormed.holderRoute_of_root (seated.atRoot howner), along_nil]
  | some owner => rw [Path.holderRoute, if_pos bracketed, along_of_along (anchored owner howner)]

/-- An entry keeps its collection unless the root or the slot of its owner gets another value. -/
theorem collection_kept (seated : Seated g root e) (bracketed : e.field.path.last.isCollection)
    (top : e.owner = none → root' = root)
    (slot : ∀ owner, e.owner = some owner → g.Has owner → owner.holdsNames →
      g'.slot? owner e.field.path.last.name = g.slot? owner e.field.path.last.name) :
    collection g' root' e = collection g root e := by
  unfold collection
  cases howner : e.owner with
  | none => exact congrArg some (top howner)
  | some owner =>
    by_cases named : e.field.path.last.name = ""
    · rw [Segment.names_of_eq named]
      rfl
    · have owns := seated.owner owner howner
      simp only [Segment.names_of_ne named, along_cons, along_nil,
        slot owner howner owns.housed.home.has (owns.names bracketed named)]

end Seated

namespace Fits

/-- What grows keeps an array large enough. -/
theorem advanced (seated : Seated g root e) (fits : Fits g root e) (advances : g.Advances root g' root') :
    Fits g' root' e := by
  intro n hindex anchored'
  have bracketed := isCollection_of_index? hindex
  have anchored := seated.anchored advances.inherits anchored'
  obtain ⟨c, place, value, bound⟩ := fits n hindex anchored
  rw [seated.collection_eq bracketed anchored] at place
  rw [(seated.inherited advances.inherits).collection_eq bracketed anchored']
  have still : ∀ {id id'}, c = .sequence .array id →
      g'.along root' e.field.path.holderRoute = some (.sequence .array id') →
      n < (g'.sequence id').items.length := by
    rintro id id' rfl arrives
    rw [addressable_iff arrives]
    exact advances.grows.isSome ((addressable_iff place).1 (bound id rfl))
  rcases advances.grows.kept place value with kept | ⟨id, id', rfl, longer⟩
  · exact ⟨c, kept, value, fun id same => still same (same ▸ kept)⟩
  · refine ⟨_, longer, by simp, fun id'' same => ?_⟩
    cases same
    exact still rfl longer

/-- So does what changes neither the collection of the entry nor the array that it is. -/
theorem kept (seated : Seated g root e) (fits : Fits g root e) (inherits : g.Inherits root g' root')
    (top : e.owner = none → root' = root)
    (slot : ∀ owner, e.owner = some owner → g.Has owner → owner.holdsNames →
      g'.slot? owner e.field.path.last.name = g.slot? owner e.field.path.last.name)
    (array : ∀ id, g.along root e.field.path.holderRoute = some (.sequence .array id) →
      g'.node (.sequence .array id) = g.node (.sequence .array id)) : Fits g' root' e := by
  intro n hindex anchored'
  have bracketed := isCollection_of_index? hindex
  have anchored := seated.anchored inherits anchored'
  obtain ⟨c, place, value, bound⟩ := fits n hindex anchored
  refine ⟨c, (seated.collection_kept bracketed top slot).trans place, value, ?_⟩
  rintro id rfl
  rw [seated.collection_eq bracketed anchored] at place
  rw [Node.sequence.inj (array id place)]
  exact bound id rfl

/-- So does a list that is filled up or cut off. -/
theorem resized (seated : Seated g root e) (fits : Fits g root e) (tree : g.Treelike root) {κ : List String}
    {id : NodeId} (arrives : g.along root κ = some (.sequence .list id))
    (change : g.Resizes g' (.sequence .list id)) : Fits g' root e := by
  refine fits.kept seated (.resize tree change) (fun _ => rfl) (fun owner _ _ names => ?_) fun id' place => ?_
  · rw [slot?, change.kept owner (address_ne_of_holdsNames names .list id), ← slot?]
  · -- the node of the list is in one place, and there it goes by the list
    refine change.kept _ fun same => ?_
    cases ((tree.homed arrives).only _ _ place same (address_sequence _ _)).2

/-- An array that is replaced by a longer one is large enough, unless the index that it is replaced for is too large;
what is not in its place keeps its array. -/
theorem replaced (seated : Seated g root e) (fits : Fits g root e) (tree : g.Treelike root) {π : List String}
    {owner : Value} {name : String} {id id' : NodeId} {index : Nat} (start : g.along root π = some owner)
    (named : name ≠ "") (names : owner.holdsNames) (slot : g.slot? owner name = some (.sequence .array id))
    (inherits : g.Inherits root g' root)
    (adds : g.Adds g₁ (.sequence .array id') (.sequence (longer g id index)))
    (put : g₁.Rewrites g' owner (onlyAt name (.sequence .array id'))) :
    Fits g' root e ∨ (e.owner = some owner ∧ e.field.path.last.name = name ∧ ¬index + 1 < 2 ^ 64) := by
  by_cases here : e.owner = some owner ∧ e.field.path.last.name = name
  · obtain ⟨howner, rfl⟩ := here
    by_cases room : index + 1 < 2 ^ 64
    case neg => exact .inr ⟨howner, rfl, room⟩
    refine .inl fun n hindex anchored' => ?_
    obtain ⟨c, place, -, bound⟩ := fits n hindex (seated.anchored inherits anchored')
    have before : collection g root e = some (.sequence .array id) := by
      simp [collection, howner, Segment.names_of_ne named, along_cons, slot]
    obtain rfl := Option.some.inj (place.symm.trans before)
    refine ⟨.sequence .array id', ?_, by simp, ?_⟩
    · simp [collection, howner, Segment.names_of_ne named, along_cons, put.slot, onlyAt]
    · rintro _ ⟨⟩
      rw [sequence_of_put adds names put, longer, padded_of_hasRoom fun _ => room, List.length_append]
      exact Nat.lt_add_right _ (bound id rfl)
  refine .inl (fits.kept seated inherits (fun _ => rfl) (fun o howner has opens => ?_) fun i place => ?_)
  · have kept : g₁.slot? o e.field.path.last.name = g.slot? o e.field.path.last.name := by
      rw [slot?, adds.kept o has, ← slot?]
    rw [put.slot_eq, kept]
    split
    · next same =>
      obtain rfl := eq_of_holdsNames opens same
      rw [onlyAt, if_neg fun eq => here ⟨howner, eq⟩, Option.none_or]
    · rfl
  · rw [put.kept _ (address_ne_of_holdsNames names .array i).symm, adds.kept _ (tree.has_of_along place)]

theorem replaced_root (seated : Seated g root e) (fits : Fits g root e) (tree : g.Treelike root) {id id' : NodeId}
    {index : Nat} (array : root = .sequence .array id)
    (inherits : g.Inherits root g' (.sequence .array id'))
    (adds : g.Adds g' (.sequence .array id') (.sequence (longer g id index))) :
    Fits g' (.sequence .array id') e ∨ (e.owner = none ∧ ¬index + 1 < 2 ^ 64) := by
  by_cases howner : e.owner = none
  · by_cases room : index + 1 < 2 ^ 64
    case neg => exact .inr ⟨howner, room⟩
    refine .inl fun n hindex anchored' => ?_
    obtain ⟨c, place, -, bound⟩ := fits n hindex (seated.anchored inherits anchored')
    have before : collection g root e = some (.sequence .array id) := by simp [collection, howner, array]
    obtain rfl := Option.some.inj (place.symm.trans before)
    refine ⟨.sequence .array id', by simp [collection, howner], by simp, ?_⟩
    rintro _ ⟨⟩
    rw [Node.sequence.inj adds.node, longer, padded_of_hasRoom fun _ => room, List.length_append]
    exact Nat.lt_add_right _ (bound id rfl)
  refine .inl (fits.kept seated inherits (fun none => absurd none howner) (fun o _ has _ => ?_) fun i place =>
    adds.kept _ (tree.has_of_along place))
  rw [slot?, adds.kept o has, ← slot?]

end Fits

/-! ## The end of a preparation -/

/-- A collection that is made large enough fits the index, if there is room for it. -/
theorem Enlarges.fits {owner c c' : Value} {s : Segment} {n : Nat} (enlarges : Enlarges g owner c s (.ok c', g'))
    (hindex : s.selector.index? = some n) (room : n + 1 < 2 ^ 64) (found : g.along owner s.names = some c)
    (value : c ≠ .null) (names : s.name ≠ "" → owner.holdsNames) :
    ∃ d, g'.along owner s.names = some d ∧ d ≠ .null ∧
      ∀ id, d = .sequence .array id → n < (g'.sequence id).items.length := by
  cases enlarges with
  | enough bound => exact ⟨c, found, value, fun id array => bound id n array hindex⟩
  | filled _ list =>
    refine ⟨c, ?_, value, by rintro id rfl; cases list⟩
    by_cases named : s.name = ""
    · rwa [Segment.names_of_eq named] at found ⊢
    · rw [Segment.names_of_ne named, along_cons] at found ⊢
      rwa [slot?, g.setItems_kept _ (address_ne_of_holdsNames (names named) .list _), ← slot?]
  | @replaced _ id' _ _ _ same array named names adds put =>
    obtain rfl := Option.some.inj (hindex.symm.trans same)
    refine ⟨.sequence .array id', by simp [Segment.names_of_ne named, along_cons, put.slot, onlyAt], by simp, ?_⟩
    rintro _ ⟨⟩
    rw [sequence_of_put adds names put, longer, lt_length_padded_iff]
    exact fun _ => room

theorem EnlargesRoot.fits {w w' : Writer} {n : Nat} (enlarges : EnlargesRoot w n w') (room : n + 1 < 2 ^ 64)
    (id : NodeId) (array : w'.root = .sequence .array id) : n < (w'.graph.sequence id).items.length := by
  cases enlarges with
  | enough bound => exact bound id array
  | filled list => cases list.symm.trans array
  | replaced _ adds =>
    obtain ⟨-, rfl⟩ := Value.sequence.inj array
    rw [Node.sequence.inj adds.node, longer, lt_length_padded_iff]
    exact fun _ => room

namespace Settles

variable {path : Path} {w w' : Writer} {owner : Option Value}

theorem inherits (settles : Settles path w owner w') (tree : w.graph.Treelike w.root) :
    w.graph.Inherits w.root w'.graph w'.root := by
  cases settles with
  | root => exact .refl tree
  | grown _ _ enlarges => exact enlarges.inherits tree
  | below _ _ arrives opens =>
    cases opens with
    | plain => exact .refl tree
    | grown _ found _ _ enlarges => exact enlarges.inherits tree arrives found

/-- The entry that a path is prepared for gets a seat. -/
theorem seated (settles : Settles path w owner w') (wellFormed : path.WellFormed) (tree : w.graph.Treelike w.root)
    {b : PendingWrite} (samePath : b.field.path = path) (sameOwner : b.owner = owner) :
    Seated w'.graph w'.root b := by
  subst samePath sameOwner
  refine Seated.inherited ⟨wellFormed, ?_, ?_⟩ (settles.inherits tree)
  · intro howner
    generalize b.owner = owner at settles howner
    cases settles with
    | root atRoot => exact atRoot
    | grown atRoot => exact atRoot
    | below => cases howner
  · rintro o howner
    generalize b.owner = owner at settles howner
    cases settles with
    | root => cases howner
    | grown => cases howner
    | below below value arrives opens =>
      cases howner
      refine ⟨below, value, tree.housed arrives, fun bracketed => ?_⟩
      cases opens with
      | plain plain => simp [plain] at bracketed
      | grown _ _ _ names => exact names

/-- Its array is large enough, or its own index is too large. -/
theorem fits (settles : Settles path w owner w') (value : w.root ≠ .null) {b : PendingWrite}
    (samePath : b.field.path = path) (sameOwner : b.owner = owner) :
    Fits w'.graph w'.root b ∨ Thwarts b b := by
  subst samePath
  by_cases room : ∀ n, b.field.path.last.selector.index? = some n → n + 1 < 2 ^ 64
  case neg =>
    simp only [not_forall] at room
    obtain ⟨n, hindex, full⟩ := room
    exact .inr ⟨rfl, rfl, n, hindex, full⟩
  refine .inl fun n hindex _ => ?_
  rw [collection, sameOwner]
  have room := room n hindex
  cases settles with
  | root _ plain => simp [hindex] at plain
  | grown _ same enlarges =>
    obtain rfl := Option.some.inj (hindex.symm.trans same)
    exact ⟨_, rfl, enlarges.value value, enlarges.fits room⟩
  | below _ _ arrives opens =>
    cases opens with
    | plain plain => simp [isCollection_of_index? hindex] at plain
    | grown _ found value names enlarges =>
      rw [along_of_along arrives] at found
      exact enlarges.fits hindex room found value names

end Settles

namespace Parked

/-- What has been queued for it does not matter to an entry that is there. -/
theorem mono {queue' : List PendingWrite} (parked : Parked zone queue g root e) (more : ∀ b ∈ queue, b ∈ queue') :
    Parked zone queue' g root e :=
  { parked with fits := parked.fits.imp_right fun ⟨b, hb, thwarts⟩ => ⟨b, more b hb, thwarts⟩ }

/-- What grows leaves an entry parked. -/
theorem advanced (parked : Parked zone queue g root e) (advances : g.Advances root g' root') :
    Parked zone queue g' root' e where
  seated := parked.seated.inherited advances.inherits
  single := parked.single
  has := advances.inherits.has _ parked.has
  outside := parked.outside.inherited parked.has advances.inherits
  settled := parked.settled
  fits := parked.fits.imp_left fun fits => fits.advanced parked.seated advances

/-- So does the end of a preparation, if what it is prepared for is in the queue. -/
theorem opened {w w' : Writer} {b : PendingWrite} (parked : Parked zone queue w.graph w.root e)
    (tree : w.graph.Treelike w.root) (settles : Settles b.field.path w b.owner w')
    (wellFormed : b.field.path.WellFormed) (hb : b ∈ queue) : Parked zone queue w'.graph w'.root e where
  seated := parked.seated.inherited (settles.inherits tree)
  single := parked.single
  has := (settles.inherits tree).has _ parked.has
  outside := parked.outside.inherited parked.has (settles.inherits tree)
  settled := parked.settled
  fits := by
    rcases parked.fits with fits | thwarted
    case inr => exact .inr thwarted
    have inherits := settles.inherits tree
    generalize howner : b.owner = owner at settles
    have seated := parked.seated
    cases settles with
    | root => exact .inl fits
    | @grown n _ atRoot hindex enlarges =>
      cases enlarges with
      | enough => exact .inl fits
      | filled list =>
        have has := tree.has
        have arrives : w.graph.along w.root [] = some (.sequence .list _) := congrArg some list
        rw [list] at has
        have kept := fits.resized seated tree arrives (setItems_padded_resizes has n)
        exact .inl kept
      | replaced array adds =>
        refine (fits.replaced_root seated tree array inherits adds).imp_right fun ⟨ownerless, full⟩ => ?_
        refine ⟨b, hb, howner.trans ownerless.symm, ?_, _, hindex, full⟩
        rw [Path.last_of_root atRoot, Path.last_of_root (seated.atRoot ownerless), wellFormed.head_name,
          seated.wellFormed.head_name]
    | below _ _ arrives opens =>
      cases opens with
      | plain => exact .inl fits
      | grown _ found _ _ enlarges =>
        cases enlarges with
        | enough => exact .inl fits
        | filled _ list =>
          subst list
          exact .inl (fits.resized seated tree found (setItems_padded_resizes (tree.has_of_along found) _))
        | replaced hindex array named names adds put =>
          subst array
          rw [Segment.names_of_ne named, along_concat, arrives, Option.bind_some] at found
          refine (fits.replaced seated tree arrives named names found inherits adds put).imp_right
            fun ⟨same, name, full⟩ => ?_
          exact ⟨b, hb, howner.trans same.symm, name.symm, _, hindex, full⟩

end Parked

end Writer

end FieldBinding
