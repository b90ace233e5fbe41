import FieldBinding.Proofs.Graph.Frame
import FieldBinding.Proofs.Writing.Waiting

/-!
# The steps of the writer

On its way along a path the writer takes two kinds of steps.  It looks into a slot and makes a new node for it if
nothing is there, or it makes a sequence longer.  `Writer.Creates` and `Writer.Enlarges` say all that such a step can
do in the empty registry, whether it succeeds or not; `Writer.Within` is what follows for a document, that the step
stays within the frame of a route.

Main results:

* `Writer.childOrCreate_creates`, `Writer.elementOrCreate_creates`, `Writer.grow_enlarges` — what the steps do.
* `Writer.ownerFrom_within`, `Writer.prepare_within` — preparing a path changes nothing apart from its route.
-/

namespace FieldBinding

open FieldBinding.Graph

variable {g g' : Graph} {root : Value} {ρ : List String}

namespace Writer

/-! ## Making what is missing -/

/-- What a step can do that looks into a slot and makes a new node if nothing is there.  It can fail before the node
is made, or when the value does not open to the slot. -/
inductive Creates (make : Step Value) (g : Graph) (v : Value) (label : String) (opens : Prop) :
    Except BindError Value × Graph → Prop
  | found {c : Value} (slot : g.slot? v label = some c) (value : c ≠ .null) :
    Creates make g v label opens (.ok c, g)
  | refused {e : BindError} (why : opens → ∃ fault, make.run g = (.error fault, g)) :
    Creates make g v label opens (.error e, g)
  | dropped {e : BindError} {c : Value} {n : Node} {g₁ : Graph} (why : ¬opens)
    (adds : g.Adds g₁ c n) (empty : ∀ other, n.slot? other = none) :
    Creates make g v label opens (.error e, g₁)
  | made {c : Value} {n : Node} {g₁ g₂ : Graph} (takes : opens) (node : v.address? ≠ none)
    (missing : (g.slot? v label).getD .null = .null) (run : make.run g = (.ok c, g₁))
    (adds : g.Adds g₁ c n) (empty : ∀ other, n.slot? other = none)
    (put : g₁.Rewrites g₂ v (onlyAt label c)) : Creates make g v label opens (.ok c, g₂)

/-- The child that a name stands for. -/
theorem childOrCreate_creates {v : Value} (has : g.Has v) (path : Path) {s : Segment}
    (named : s.name ≠ "") (next : Option Segment) :
    Creates (newChild .empty path (Registry.empty.childType? g v s.name none) s next) g v s.name
      v.holdsNames ((childOrCreate .empty path v s next).run g) := by
  by_cases names : v.holdsNames
  case neg =>
    rw [(ChildRun.lost named (Registry.child_empty_error g named names)).run_eq]
    exact .refused fun opens => absurd opens names
  have child := Registry.child_empty_of_names g named names
  by_cases missing : (g.slot? v s.name).getD .null = .null
  case neg =>
    rw [(ChildRun.found named child missing).run_eq]
    exact .found (slot?_of_getD missing) missing
  rw [missing] at child
  rcases newChild_alike path (Registry.empty.childType? g v s.name none) s next g g fun _ => .rfl with
    ⟨e, run, -⟩ | ⟨c, n, g₁, _, run, -, adds, -, empty⟩
  · rw [(ChildRun.unmade named child run).run_eq]
    exact .refused fun _ => ⟨e, run⟩
  · obtain ⟨g₂, set, put⟩ := Registry.setChild_empty ((adds.has v).2 (.inl has)) names s.name c
      (some (g₁.tagOf c))
    rw [(ChildRun.made named child run set).run_eq]
    exact .made names (Value.address_of_holdsNames names) missing run adds empty put

/-- A new node does not change what takes a value. -/
theorem takes_iff_of_adds {c v : Value} {n : Node} {slot : Slot} (adds : g.Adds g' c n)
    (has : g.Has v) : g'.Takes v slot ↔ g.Takes v slot := by
  rw [Takes, Takes, slot?, adds.kept v has, ← slot?]

/-- What has been stored as an element was taken. -/
theorem takes_of_storeElement {path : Path} {c v : Value} {slot : Slot} (has : g.Has c)
    (store : g.storeElement path c slot v = .ok g') :
    g.Takes c slot ∧ g.Rewrites g' c (onlyAt (label slot) v) := by
  refine ⟨?_, (storeElement_rewrites has store).2⟩
  by_contra misfit
  rw [storeElement_misfit path misfit v] at store
  cases store

/-- The element at a place. -/
theorem elementOrCreate_creates {c : Value} (has : g.Has c) (path : Path) {s : Segment} {slot : Slot}
    (hslot : s.selector.slot? = some slot) (next : Option Segment) :
    Creates (intermediate .empty path (g.elementType? c) next) g c (label slot) (g.Takes c slot)
      ((elementOrCreate .empty path c s next).run g) := by
  generalize h : (elementOrCreate .empty path c s next).run g = out
  obtain ⟨result, g'⟩ := out
  cases elementOrCreate_runs h with
  | placeless none => simp [hslot] at none
  | found place value =>
    obtain rfl := Option.some.inj (hslot.symm.trans place)
    exact .found (slot?_of_elementAt value) value
  | unmade place missing make =>
    obtain rfl := intermediate_error make
    exact .refused fun _ => ⟨_, make⟩
  | @unstored _ w _ _ place missing make store =>
    obtain rfl := Option.some.inj (hslot.symm.trans place)
    obtain ⟨n, adds, empty⟩ := (intermediate_alike path (g.elementType? c) next).adds make
    refine .dropped (fun takes => ?_) adds empty
    obtain ⟨g₂, set, -⟩ := storeElement_takes path ((adds.has c).2 (.inl has)) ((takes_iff_of_adds adds has).2 takes) w
    rw [set] at store
    cases store
  | @made _ w _ _ place missing make store =>
    obtain rfl := Option.some.inj (hslot.symm.trans place)
    obtain ⟨n, adds, empty⟩ := (intermediate_alike path (g.elementType? c) next).adds make
    obtain ⟨takes, put⟩ := takes_of_storeElement ((adds.has c).2 (.inl has)) store
    rw [elementAt_eq, if_pos takes.1] at missing
    exact .made ((takes_iff_of_adds adds has).1 takes) (address_of_fits takes.1) missing make adds empty put

/-- A new node stays within the frame of a route through its slot. -/
theorem Creates.frames {make : Step Value} {v : Value} {label : String} {opens : Prop}
    {x : Except BindError Value × Graph} (creates : Creates make g v label opens x)
    (tree : g.Treelike root) {π : List String} (arrives : g.along root π = some v)
    (front : π ++ [label] <+: ρ) : Frames ρ g root x.2 root := by
  cases creates with
  | found => exact .refl ρ g root
  | refused => exact .refl ρ g root
  | dropped _ adds empty => exact .add tree adds fun other d h => by simp [empty] at h
  | made _ node missing _ adds empty put =>
    have before := along_of_missing arrives missing
    exact .graft tree arrives node front adds put (continues_of_missing empty before)
      (before.imp_right .inl) fun other _ null => by simp [empty] at null

/-! ## Making sequences longer -/

/-- What a step can do that makes an index of a collection addressable.  It can fail only where an array that is too
short has no name in its owner. -/
inductive Enlarges (g : Graph) (owner c : Value) (s : Segment) :
    Except BindError Value × Graph → Prop
  | enough (bound : ∀ id index, c = .sequence .array id → s.selector.index? = some index →
      index < (g.sequence id).items.length) : Enlarges g owner c s (.ok c, g)
  | filled {id : NodeId} {index : Nat} (hindex : s.selector.index? = some index)
    (list : c = .sequence .list id) :
    Enlarges g owner c s (.ok c, g.setItems id (padded (g.sequence id).items index))
  | refused {id : NodeId} {index : Nat} {c' : Value} {g₁ : Graph} {e : BindError}
    (hindex : s.selector.index? = some index) (array : c = .sequence .array id)
    (unnamed : s.name = "") (adds : g.Adds g₁ c' (.sequence (longer g id index))) :
    Enlarges g owner c s (.error e, g₁)
  | replaced {id id' : NodeId} {index : Nat} {g₁ g₂ : Graph}
    (hindex : s.selector.index? = some index) (array : c = .sequence .array id)
    (named : s.name ≠ "") (names : owner.holdsNames)
    (adds : g.Adds g₁ (.sequence .array id') (.sequence (longer g id index)))
    (put : g₁.Rewrites g₂ owner (onlyAt s.name (.sequence .array id'))) :
    Enlarges g owner c s (.ok (.sequence .array id'), g₂)

/-- An array that stays is large enough. -/
theorem lt_length_of_grow {id : NodeId} {index : Nat} (has : g.Has (.sequence .array id))
    (stays : ∀ c' g₁, g.grow (.sequence .array id) index = some (c', g₁) → c' = .sequence .array id) :
    index < (g.sequence id).items.length := by
  by_contra short
  have same : (g.newSequence .array (longer g id index)).1 = .sequence .array id := stays _ _ (if_neg short)
  exact (newSequence_adds g .array (longer g id index)).new (same ▸ has)

theorem grow_enlarges {owner c : Value} (has : g.Has c) (has_owner : g.Has owner) (path : Path)
    {s : Segment} (names : s.name ≠ "" → owner.holdsNames) :
    Enlarges g owner c s ((grow .empty path owner s c).run g) := by
  generalize h : (grow .empty path owner s c).run g = out
  obtain ⟨result, g'⟩ := out
  cases grow_runs h with
  | kept why =>
    refine .enough fun id index array hindex => ?_
    subst array
    exact lt_length_of_grow has fun c' g₁ grown => by simp [why index hindex] at grown
  | widened hindex grows =>
    rcases grow_same has grows with rfl | ⟨id, rfl, rfl⟩
    · refine .enough fun id index array same => ?_
      subst array
      obtain rfl := Option.some.inj (hindex.symm.trans same)
      exact lt_length_of_grow has fun c' g₁ grown => (Prod.mk.inj (Option.some.inj (grown.symm.trans grows))).1
    · exact .filled hindex rfl
  | nested hindex grows other unnamed =>
    obtain ⟨id, _, rfl, -, adds⟩ := adds_of_grow_other other grows
    exact .refused hindex rfl unnamed adds
  | @unstored _ c' _ g₁ _ hindex grows other named put =>
    obtain ⟨id, _, rfl, -, adds⟩ := adds_of_grow_other other grows
    obtain ⟨g₂, set, -⟩ := Registry.setChild_empty ((adds.has owner).2 (.inl has_owner)) (names named) s.name c'
      (some (g₁.tagOf c'))
    rw [set] at put
    cases put
  | replaced hindex grows other named put =>
    obtain ⟨id, id', rfl, rfl, adds⟩ := adds_of_grow_other other grows
    obtain ⟨names, put⟩ := Registry.setChild_empty_ok ((adds.has owner).2 (.inl has_owner)) put
    exact .replaced hindex rfl named names adds put

theorem address_sequence (kind : SequenceKind) (id : NodeId) :
    (Value.sequence kind id).address? ≠ none := by
  simp [Value.address?]

/-- A sequence is filled up in front of an index. -/
theorem exists_of_paddedAt {length index : Nat} {other : String} (new : (paddedAt length index other).isSome) :
    ∃ i, other = Numeral.text i ∧ i ≤ index := by
  obtain ⟨d, new⟩ := Option.isSome_iff_exists.1 new
  obtain ⟨n, same, item⟩ := exists_of_itemAt new
  have bound := (List.getElem?_eq_some_iff.1 item).1
  rw [List.length_replicate] at bound
  exact ⟨length + n, same, by omega⟩

/-- The nulls that fill up a sequence stand in front of an index of the route. -/
theorem fills_of_paddedAt {π : List String} {c : Value} {kind : SequenceKind} {id : NodeId}
    {length index : Nat} {other : String} (sequence : c = .sequence kind id)
    (new : (paddedAt length index other).isSome)
    (front : π ++ [Numeral.text index] <+: ρ) : Frames.Fills c π ρ other := by
  obtain ⟨i, same, le⟩ := exists_of_paddedAt new
  exact ⟨i, index, kind, id, sequence, same, le, front⟩

theorem fills_of_longer {π : List String} {id id' : NodeId} {index : Nat} {other : String}
    (room : HasRoom (g.sequence id).items index) (arrives : g.along root π = some (.sequence .array id))
    (absent : g.along root (π ++ [other]) = none)
    (null : (Node.sequence (longer g id index)).slot? other = some .null)
    (front : π ++ [Numeral.text index] <+: ρ) : Frames.Fills (.sequence .array id') π ρ other := by
  rw [along_concat, arrives, Option.bind_some] at absent
  rw [slot?_longer room .array, absent, Option.or_none] at null
  exact fills_of_paddedAt rfl (by rw [null]; rfl) front

/-- A longer sequence stays within the frame of a route through its index. -/
theorem Enlarges.frames {owner c : Value} {s : Segment} {x : Except BindError Value × Graph}
    (enlarges : Enlarges g owner c s x) (roomy : s.Roomy) (tree : g.Treelike root) {π : List String}
    (start : g.along root π = some owner) (arrives : g.along root (π ++ s.names) = some c)
    (front : ∀ n, s.selector.index? = some n → π ++ s.names ++ [Numeral.text n] <+: ρ) :
    Frames ρ g root x.2 root := by
  cases enlarges with
  | enough => exact .refl ρ g root
  | @filled id index hindex list =>
    subst list
    have front := front index hindex
    exact .pad tree arrives (address_sequence _ _) (by simp)
      ((List.prefix_append _ _).trans front)
      (setItems_padded_rewrites (tree.has_of_along arrives) (roomy.hasRoom hindex _))
      (fun label d h => ⟨eq_null_of_paddedAt h, itemAt_eq_none_of_paddedAt h⟩)
      fun label d h => fills_of_paddedAt rfl (by rw [h]; rfl) front
  | refused hindex array _ adds =>
    subst array
    exact .add tree adds ((longer_continues arrives (roomy.hasRoom hindex _)).has tree)
  | replaced hindex array named names adds put =>
    subst array
    have room := roomy.hasRoom hindex
    have front := front _ hindex
    rw [Segment.names_of_ne named] at arrives front
    exact .graft tree start (Value.address_of_holdsNames names)
      ((List.prefix_append _ _).trans front) adds put (longer_continues arrives (room _))
      (.inr (.inr ⟨_, _, arrives, rfl⟩)) fun other absent null =>
        fills_of_longer (room _) arrives absent null front

/-! ## Within a frame -/

/-- A step on a document, whether it succeeds or not, stays within the frame of a route. -/
def Within {α : Type} (ρ : List String) (root : Value) (g : Graph) (x : Step α)
    (post : α → Graph → Prop) : Prop :=
  ∃ result g', x.run g = (result, g') ∧ g'.Treelike root ∧ g.Grows root g' root ∧
    Frames ρ g root g' root ∧ ∀ a, result = .ok a → post a g'

namespace Within

variable {α β : Type} {x : Step α} {post : α → Graph → Prop}

theorem of_alongside (alongside : Alongside [] root g g x x post)
    (frames : Frames ρ g root (x.run g).2 root) : Within ρ root g x post := by
  obtain ⟨result, g', _, run, -, ahead, grows, h⟩ := alongside
  rw [run] at frames
  exact ⟨result, g', run, ahead.tree, grows, frames, h⟩

theorem pure (tree : g.Treelike root) {a : α} (h : post a g) :
    Within ρ root g (pure a) post :=
  ⟨.ok a, g, rfl, tree, .refl g root, .refl ρ g root, fun _ same => Except.ok.inj same ▸ h⟩

theorem mono {post' : α → Graph → Prop} (h : Within ρ root g x post)
    (weaker : ∀ a g', post a g' → post' a g') : Within ρ root g x post' := by
  obtain ⟨result, g', run, tree, grows, frames, after⟩ := h
  exact ⟨result, g', run, tree, grows, frames, fun a same => weaker a g' (after a same)⟩

theorem bind {k : α → Step β} {post' : β → Graph → Prop} (first : Within ρ root g x post)
    (next : ∀ a g', g'.Treelike root → post a g' → Within ρ root g' (k a) post') :
    Within ρ root g (x >>= k) post' := by
  obtain ⟨result, g₁, run, tree, grows, frames, h⟩ := first
  cases result with
  | error e =>
    refine ⟨.error e, g₁, ?_, tree, grows, frames, fun _ same => by cases same⟩
    simp only [Running.run_bind, run]
  | ok a =>
    obtain ⟨result, g₂, run₂, tree₂, grows₂, frames₂, h₂⟩ := next a g₁ tree (h a rfl)
    refine ⟨result, g₂, ?_, tree₂, grows.trans grows₂, frames.trans frames₂, h₂⟩
    simp only [Running.run_bind, run, run₂]

end Within

/-- The child of a segment. -/
theorem childOrCreate_within (tree : g.Treelike root) (path : Path) {π : List String} {v : Value}
    {s : Segment} (next : Option Segment) (arrives : g.along root π = some v) (value : v ≠ .null)
    (front : π ++ s.names <+: ρ) :
    Within ρ root g (childOrCreate .empty path v s next) fun c g' =>
      g'.along root π = some v ∧ g'.along root (π ++ s.names) = some c ∧ c ≠ .null ∧
        (s.name ≠ "" → v.holdsNames) := by
  refine .of_alongside (childOrCreate_alongside (.refl tree) arrives value fun _ => rfl) ?_
  by_cases named : s.name = ""
  · rw [(ChildRun.unnamed named).run_eq]
    exact .refl ρ g root
  · rw [Segment.names_of_ne named] at front
    exact (childOrCreate_creates (tree.has_of_along arrives) path named next).frames tree arrives front

/-- The collection of a segment, large enough. -/
theorem grow_within (tree : g.Treelike root) (path : Path) {π : List String} {owner c : Value}
    {s : Segment} (roomy : s.Roomy) (start : g.along root π = some owner)
    (arrives : g.along root (π ++ s.names) = some c) (value : c ≠ .null)
    (names : s.name ≠ "" → owner.holdsNames) (front : π ++ s.labels <+: ρ) :
    Within ρ root g (grow .empty path owner s c) fun c' g' =>
      g'.along root π = some owner ∧ g'.along root (π ++ s.names) = some c' ∧ c' ≠ .null ∧
        ∀ n, s.selector.index? = some n → Addressable g' c' n := by
  have room : ∀ n, s.selector.index? = some n → RoomIn g c n := fun n hn _ _ _ => roomy.hasRoom hn _
  refine .of_alongside (grow_alongside (.refl tree) start arrives value room names fun _ => rfl) ?_
  refine (grow_enlarges (tree.has_of_along arrives) (tree.has_of_along start) path names).frames
    roomy tree start arrives fun n hn => ?_
  have labels : s.labels = s.names ++ [Numeral.text n] := by
    rw [Segment.labels, slot?_of_index? hn]
    rfl
  rwa [labels, ← List.append_assoc] at front

/-- The element of a segment. -/
theorem elementOrCreate_within (tree : g.Treelike root) (path : Path) {π : List String} {c : Value}
    {s : Segment} {slot : Slot} (hslot : s.selector.slot? = some slot) (next : Option Segment)
    (arrives : g.along root π = some c) (front : π ++ [label slot] <+: ρ) :
    Within ρ root g (elementOrCreate .empty path c s next) fun w g' =>
      g'.along root (π ++ [label slot]) = some w ∧ w ≠ .null :=
  .of_alongside (elementOrCreate_alongside (.refl tree) path next hslot arrives rfl)
    ((elementOrCreate_creates (tree.has_of_along arrives) path hslot next).frames tree arrives front)

/-- What is in front of the labels of a segment is in front of its name. -/
theorem names_front {π : List String} {s : Segment} (front : π ++ s.labels <+: ρ) : π ++ s.names <+: ρ := by
  rw [Segment.labels, ← List.append_assoc] at front
  exact (List.prefix_append _ _).trans front

/-- The collection of a segment, made and large enough. -/
theorem collect_within (tree : g.Treelike root) (path : Path) {π : List String} {v : Value} {s : Segment}
    (roomy : s.Roomy) (next : Option Segment) (arrives : g.along root π = some v) (value : v ≠ .null)
    (front : π ++ s.labels <+: ρ) :
    Within ρ root g (collect .empty path v s next) fun c g' => g'.along root (π ++ s.names) = some c := by
  refine .bind (childOrCreate_within tree path next arrives value (names_front front)) fun c g₁ tree₁ found => ?_
  obtain ⟨start, arrives₁, value₁, names⟩ := found
  exact (grow_within tree₁ path roomy start arrives₁ value₁ names front).mono fun _ _ grown => grown.2.1

/-- A segment is passed. -/
theorem pass_within (tree : g.Treelike root) (path : Path) {π : List String} {v : Value} {s : Segment}
    (roomy : s.Roomy) (single : s.isWildcard = false) (next : Option Segment)
    (arrives : g.along root π = some v) (value : v ≠ .null)
    (front : π ++ s.labels <+: ρ) :
    Within ρ root g (pass .empty path v s next) fun w g' => g'.along root (π ++ s.labels) = some w ∧ w ≠ .null := by
  by_cases bracketed : s.isCollection
  case neg =>
    have plain : s.isCollection = false := by simpa using bracketed
    have labels : s.labels = s.names := by simp [Segment.labels, slot?_eq_none plain]
    rw [pass_of_plain plain, labels]
    exact (childOrCreate_within tree path next arrives value (names_front front)).mono
      fun _ _ found => ⟨found.2.1, found.2.2.1⟩
  obtain ⟨slot, hslot⟩ := slot?_of_single bracketed single
  have labels : π ++ s.labels = π ++ s.names ++ [Graph.label slot] := by simp [Segment.labels, hslot]
  rw [pass_of_collection bracketed, labels]
  refine .bind (collect_within tree path roomy next arrives value front) fun c g₁ tree₁ arrives₁ => ?_
  exact elementOrCreate_within tree₁ path hslot next arrives₁ (labels ▸ front)

/-- The walk along a path stays within the frame of its route. -/
theorem ownerFrom_within (path : Path) {π : List String} {v : Value} {segments : List Segment}
    (roomy : ∀ s ∈ segments, s.Roomy) (single : ∀ s ∈ segments, s.isWildcard = false) (tree : g.Treelike root)
    (arrives : g.along root π = some v) (value : v ≠ .null)
    (front : π ++ segments.flatMap Segment.labels <+: ρ) :
    Within ρ root g (ownerFrom .empty path v segments) fun _ _ => True := by
  induction segments generalizing v g π with
  | nil => exact .pure tree trivial
  | cons s rest ih =>
    have roomy_s := roomy s List.mem_cons_self
    rw [List.flatMap_cons, ← List.append_assoc] at front
    have front_s : π ++ s.labels <+: ρ := (List.prefix_append _ _).trans front
    by_cases last : rest = []
    · subst last
      rw [ownerFrom_last]
      split
      · exact .bind (collect_within tree path roomy_s none arrives value front_s) fun _ _ tree₁ _ => .pure tree₁ trivial
      · exact .pure tree trivial
    rw [ownerFrom_cons last]
    refine .bind (pass_within tree path roomy_s (single s List.mem_cons_self) rest.head? arrives value front_s)
      fun w g₁ tree₁ found => ?_
    exact ih (fun t ht => roomy t (List.mem_cons_of_mem s ht)) (fun t ht => single t (List.mem_cons_of_mem s ht)) tree₁
      found.1 found.2 front

/-! ## The root -/

/-- What can come of making an index of the root addressable. -/
inductive EnlargesRoot (w : Writer) (index : Nat) : Writer → Prop
  | enough (bound : ∀ id, w.root = .sequence .array id → index < (w.graph.sequence id).items.length) :
    EnlargesRoot w index w
  | filled {id : NodeId} (list : w.root = .sequence .list id) :
    EnlargesRoot w index
      { w with graph := w.graph.setItems id (padded (w.graph.sequence id).items index) }
  | replaced {id id' : NodeId} {g₁ : Graph} (array : w.root = .sequence .array id)
    (adds : w.graph.Adds g₁ (.sequence .array id') (.sequence (longer w.graph id index))) :
    EnlargesRoot w index { w with root := .sequence .array id', graph := g₁ }

theorem growRoot_enlarges {w : Writer} (has : w.graph.Has w.root) (index : Nat) :
    EnlargesRoot w index (growRoot index w).2 := by
  cases grows : w.graph.grow w.root index with
  | none =>
    rw [growRoot_kept grows]
    refine .enough fun id array => ?_
    rw [array] at has grows
    exact lt_length_of_grow has fun c' g₁ grown => by simp [grows] at grown
  | some grown =>
    obtain ⟨root, graph⟩ := grown
    rw [growRoot_grown grows]
    rcases grow_cases grows with ⟨rfl, rfl⟩ | ⟨id, list, rfl, rfl⟩ | ⟨id, array, -, new⟩
    · refine .enough fun id array => ?_
      rw [array] at has grows
      exact lt_length_of_grow has fun c' g₁ grown => (Prod.mk.inj (Option.some.inj (grown.symm.trans grows))).1
    · exact .filled list
    · obtain ⟨rfl, rfl⟩ := Prod.mk.inj new
      exact .replaced array (newSequence_adds w.graph .array _)

theorem EnlargesRoot.frames {w w' : Writer} {index : Nat} (enlarges : EnlargesRoot w index w')
    (fits : index + 1 < 2 ^ 64) (tree : w.graph.Treelike w.root) (front : [Numeral.text index] <+: ρ) :
    Frames ρ w.graph w.root w'.graph w'.root := by
  cases enlarges with
  | enough => exact .refl _ _ _
  | filled list =>
    have has := tree.has
    rw [list] at has ⊢
    exact .pad (list ▸ tree) (along_nil _ _) (address_sequence _ _) (by simp) List.nil_prefix
      (setItems_padded_rewrites has fun _ => fits)
      (fun label d h => ⟨eq_null_of_paddedAt h, itemAt_eq_none_of_paddedAt h⟩)
      fun label d h => fills_of_paddedAt rfl (by rw [h]; rfl) front
  | replaced array adds =>
    rw [array]
    exact .graft_root (array ▸ tree) adds (longer_continues (along_nil _ _) fun _ => fits)
      (.inr ⟨_, _, rfl, rfl⟩) fun other absent null =>
        fills_of_longer (fun _ => fits) (along_nil _ _) absent null front

/-- What can come of making a root where there is none. -/
inductive MakesRoot (w : Writer) (bracket : Option Bracket) : Writer → Prop
  | found (value : w.root ≠ .null) : MakesRoot w bracket w
  | made {n : Node} (missing : w.root = .null)
    (adds : w.graph.Adds (emptyCollection w.graph bracket).2 (emptyCollection w.graph bracket).1 n)
    (empty : ∀ label, n.slot? label = none) :
    MakesRoot w bracket { w with
      root := (emptyCollection w.graph bracket).1
      graph := (emptyCollection w.graph bracket).2 }

theorem MakesRoot.has {w w' : Writer} {bracket : Option Bracket} (makes : MakesRoot w bracket w')
    (has : w.graph.Has w.root) : w'.graph.Has w'.root := by
  cases makes with
  | found => exact has
  | made missing adds empty => exact (adds.has _).2 (.inr rfl)

theorem ensureRoot_makes {w : Writer} (has : w.graph.Has w.root) (s : Segment) :
    ∃ w₁, MakesRoot w s.selector.bracket? w₁ ∧
      ((s.selector.index? = none ∧ (ensureRoot s w).2 = w₁) ∨
        ∃ index, s.selector.index? = some index ∧ EnlargesRoot w₁ index (ensureRoot s w).2) := by
  have makes : MakesRoot w s.selector.bracket? (w.withRoot s.selector.bracket?) := by
    by_cases missing : w.root = .null
    case neg =>
      rw [withRoot_of_value missing]
      exact .found missing
    rcases emptyCollection_alike s.selector.bracket? w.graph w.graph fun _ => .rfl with
      ⟨e, run, -⟩ | ⟨c, n, g₁, _, run, -, adds, -, empty⟩
    · cases run
    cases run
    rw [withRoot_of_null missing]
    exact .made missing adds empty
  refine ⟨_, makes, ?_⟩
  rw [ensureRoot_eq]
  cases hindex : s.selector.index? with
  | none => exact .inl ⟨rfl, rfl⟩
  | some index => exact .inr ⟨index, rfl, growRoot_enlarges (makes.has has) index⟩

theorem MakesRoot.frames {w w' : Writer} {bracket : Option Bracket} (makes : MakesRoot w bracket w')
    (tree : w.graph.Treelike w.root) :
    Frames ρ w.graph w.root w'.graph w'.root ∧ w.graph.Grows w.root w'.graph w'.root ∧
      w'.graph.Treelike w'.root := by
  cases makes with
  | found => exact ⟨.refl _ _ _, .refl _ _, tree⟩
  | made missing adds empty =>
    have null : w.graph.along w.root [] = some .null := congrArg some missing
    have continues := continues_of_missing empty (.inr null)
    have grafts := tree.grafts_root adds continues
    exact ⟨.graft_root tree adds continues (.inl missing) fun other _ null => by
      simp [empty] at null, grafts.grows (.inr (.inl null)), grafts.treelike tree⟩

theorem ensureRoot_frames {w : Writer} (tree : w.graph.Treelike w.root) {s : Segment} (roomy : s.Roomy)
    (front : ∀ n, s.selector.index? = some n → [Numeral.text n] <+: ρ) :
    let w' := (ensureRoot s w).2
    Frames ρ w.graph w.root w'.graph w'.root := by
  intro w'
  obtain ⟨w₁, makes, ⟨-, same⟩ | ⟨index, hindex, enlarges⟩⟩ := ensureRoot_makes tree.has s
  · obtain rfl : w' = w₁ := same
    exact (makes.frames tree).1
  · obtain ⟨frames, -, tree₁⟩ := makes.frames (ρ := ρ) tree
    exact frames.trans (enlarges.frames (roomy index hindex) tree₁ (front index hindex))

/-- The way from the root to the owner of the last segment stays within the frame of the route. -/
theorem reach_within {path : Path} (wellFormed : path.WellFormed) (single : path.hasWildcard = false)
    (roomy : path.Roomy) (tree : g.Treelike root) (value : root ≠ .null) :
    Within path.route root g (reach .empty path root) fun _ _ => True := by
  have single_tail := fun s hs => Path.single_of_mem single (s := s) (List.mem_cons_of_mem _ hs)
  have roomy_tail := fun s hs => roomy s (List.mem_cons_of_mem _ hs)
  unfold reach
  by_cases bracketed : path.head.isCollection
  · obtain ⟨slot, hslot⟩ := slot?_of_single bracketed (Path.single_of_mem single List.mem_cons_self)
    have route := route_of_head_slot wellFormed hslot
    rw [if_pos bracketed]
    refine .bind (elementOrCreate_within tree path hslot path.tail.head? (along_nil _ _)
      (route ▸ List.prefix_append _ _)) fun start g₁ tree₁ found => ?_
    exact ownerFrom_within path roomy_tail single_tail tree₁ found.1 found.2 (route ▸ List.prefix_rfl)
  · have route : path.route = path.tail.flatMap Segment.labels := by
      rw [Path.route, Path.followed_of_plain bracketed]
    rw [if_neg bracketed, pure_bind]
    exact ownerFrom_within path roomy_tail single_tail tree (along_nil _ _) value (by rw [route]; exact List.prefix_rfl)

/-- Preparing a path stays within the frame of its route. -/
theorem prepare_within {path : Path} (wellFormed : path.WellFormed)
    (single : path.hasWildcard = false) (roomy : path.Roomy) {w : Writer} (tree : w.graph.Treelike w.root) :
    ∃ result root g', (prepare .empty path).run w = (result, { w with root, graph := g' }) ∧
      g'.Treelike root ∧ w.graph.Grows w.root g' root ∧ root ≠ .null ∧
      Frames path.route w.graph w.root g' root ∧
      ∀ owner, result = .ok owner → Prepared g' root path owner := by
  obtain ⟨result, root, g', _, run, -, ahead, grows, value, prepared⟩ :=
    prepare_alongside wellFormed single roomy rfl (.refl tree) fun _ _ _ _ => rfl
  refine ⟨result, root, g', run, ahead.tree, grows, value, ?_, prepared⟩
  have roomy_head := roomy path.head List.mem_cons_self
  obtain ⟨root₁, g₁, _, run₁, -, ahead₁, -, value₁, -⟩ :=
    ensureRoot_alongside rfl (.refl tree) roomy_head
  have frames₁ := ensureRoot_frames tree roomy_head (ρ := path.route) fun n hn => by
    rw [route_of_head_slot wellFormed (slot?_of_index? hn)]
    exact List.prefix_append _ _
  rw [run₁] at frames₁
  by_cases atRoot : path.tail = []
  · rw [prepare_of_root single atRoot run₁] at run
    cases run
    exact frames₁
  · obtain ⟨reached, g₂, run₂, -, -, frames₂, -⟩ := reach_within wellFormed single roomy ahead₁.tree value₁
    rw [prepare_of_reach single atRoot run₁ run₂] at run
    cases run
    exact frames₁.trans frames₂

end Writer

end FieldBinding
