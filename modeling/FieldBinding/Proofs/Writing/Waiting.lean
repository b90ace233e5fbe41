import FieldBinding.Proofs.Graph.Homes
import FieldBinding.Proofs.Writing.Alongside
import FieldBinding.Proofs.Writing.Queueing

/-!
# Values that wait in a queue

Between preparing a path and storing a value at it, other paths are prepared.  A document only grows by that, and
what an entry of the queue needs is still there: the collection or the object that takes the value is in its place,
large enough, and of the kind it was.

Main results:

* `Writer.Waits.grown` — an entry that waits still does when the document has grown.
* `Writer.apply_ahead` — in the empty registry an entry is stored exactly if what is in its place takes it.
* `Writer.populate_alongside` — in two documents of which one is ahead the same entry is queued.
-/

namespace FieldBinding

open FieldBinding.Graph

variable {g f g' f' : Graph} {root root' : Value} {es : Stores}

namespace Path

/-- The route of the value that takes what is stored at a path. -/
def holderRoute (p : Path) : List String :=
  p.ownerRoute ++ if p.last.isCollection then p.last.names else []

theorem getLast_followed {p : Path} (more : p.followed ≠ []) : p.followed.getLast more = p.last := by
  unfold followed at more ⊢
  by_cases bracketed : p.head.isCollection
  · simp only [bracketed, if_true, segments, last]
    exact List.getLast_eq_getLastD _
  · simp only [bracketed, Bool.false_eq_true, if_false] at more ⊢
    simp [last, List.getLastD_eq_getLast?, List.getLast?_eq_some_getLast more]

theorem route_eq {p : Path} (more : p.followed ≠ []) :
    p.route = p.ownerRoute ++ p.last.labels := by
  rw [route, ownerRoute, ← getLast_followed more]
  conv_lhs => rw [← List.dropLast_concat_getLast more]
  simp

/-- The label under which a value is stored at a path. -/
theorem route_of_slot {p : Path} (more : p.followed ≠ []) {slot : Slot}
    (hslot : p.last.selector.slot? = some slot) : p.route = p.holderRoute ++ [Graph.label slot] := by
  have collection : p.last.isCollection := by
    cases selector : p.last.selector <;>
      simp_all [Segment.isCollection, Selector.bracket?, Selector.slot?]
  rw [route_eq more, holderRoute, if_pos collection, Segment.labels, hslot]
  simp

theorem route_of_name {p : Path} (more : p.followed ≠ []) (plain : p.last.isCollection = false)
    (named : p.last.name ≠ "") : p.route = p.holderRoute ++ [p.last.name] := by
  rw [route_eq more, holderRoute, plain, Segment.labels, Writer.slot?_eq_none plain,
    Segment.names_of_ne named]
  simp

/-- What is stored at a path that is a root alone is taken by the root. -/
theorem WellFormed.holderRoute_of_root {p : Path} (wellFormed : p.WellFormed) (atRoot : p.tail = []) :
    p.holderRoute = [] := by
  have front : p.followed.dropLast = [] := by
    unfold followed
    split <;> simp [segments, atRoot]
  have last := Path.last_of_root atRoot
  rw [holderRoute, ownerRoute, front, last, Segment.names_of_eq wellFormed.head_name]
  simp

/-- The route of the place that a value is stored in.  It is longer than the route of the path where the last segment
has neither a name nor brackets: the value is then stored under the empty name. -/
def placeRoute (p : Path) : List String :=
  p.holderRoute ++ [(p.last.selector.slot?.map Graph.label).getD p.last.name]

theorem placeRoute_of_slot {p : Path} (more : p.followed ≠ []) {slot : Slot}
    (hslot : p.last.selector.slot? = some slot) : p.placeRoute = p.route := by
  rw [placeRoute, hslot]
  exact (route_of_slot more hslot).symm

theorem placeRoute_of_name {p : Path} (more : p.followed ≠ []) (plain : p.last.isCollection = false)
    (named : p.last.name ≠ "") : p.placeRoute = p.route := by
  rw [placeRoute, Writer.slot?_eq_none plain]
  exact (route_of_name more plain named).symm

theorem route_prefix_placeRoute {p : Path} (more : p.followed ≠ [])
    (single : p.last.isWildcard = false) : p.route <+: p.placeRoute := by
  by_cases collection : p.last.isCollection
  · obtain ⟨slot, hslot⟩ := Writer.slot?_of_single collection single
    rw [placeRoute_of_slot more hslot]
  have plain : p.last.isCollection = false := by simpa using collection
  by_cases named : p.last.name = ""
  · have route : p.route = p.holderRoute := by
      rw [route_eq more, holderRoute, plain, Segment.labels, Writer.slot?_eq_none plain,
        Segment.names_of_eq named]
      simp
    rw [route, placeRoute]
    exact List.prefix_append _ _
  · rw [placeRoute_of_name more plain named]

end Path

namespace Writer

/-! ## What an entry needs -/

/-- The value that takes what is stored at a path is in its place, and an index of it is addressable. -/
def Standing (g : Graph) (root : Value) (p : Path) : Prop :=
  ∃ h, g.along root p.holderRoute = some h ∧ h ≠ .null ∧
    ∀ n, p.last.selector.index? = some n → Addressable g h n

theorem addressable_iff {π : List String} {kind : SequenceKind} {id : NodeId} {n : Nat}
    (arrives : g.along root π = some (.sequence kind id)) :
    n < (g.sequence id).items.length ↔ (g.along root (π ++ [Numeral.text n])).isSome := by
  rw [along_concat, arrives, Option.bind_some, slot?_sequence_text, isSome_getElem?]

theorem Standing.grown {p : Path} (standing : Standing g root p) (grows : g.Grows root g' root') :
    Standing g' root' p := by
  obtain ⟨h, arrives, value, addressable⟩ := standing
  have still : ∀ {kind id kind' id'}, h = .sequence kind id →
      g'.along root' p.holderRoute = some (.sequence kind' id') →
      ∀ n, p.last.selector.index? = some n → n < (g'.sequence id').items.length := by
    rintro kind id kind' id' rfl arrives' n hn
    rw [addressable_iff arrives']
    exact grows.isSome ((addressable_iff arrives).1 (addressable n hn kind id rfl))
  rcases grows.kept arrives value with kept | ⟨id, id', rfl, longer⟩
  · exact ⟨h, kept, value, fun n hn kind id same => still same (same ▸ kept) n hn⟩
  · refine ⟨_, longer, by simp, fun n hn kind id'' same => ?_⟩
    cases same
    exact still rfl longer n hn

/-- Whether a value can hold what a segment stands for. -/
def accepts (h : Value) (s : Segment) : Bool :=
  match s.selector.slot? with
  | none => h.holdsNames
  | some slot => fits h slot

/-- Whether an entry of the queue finds a value that takes it. -/
def accepted (g : Graph) (root : Value) (p : Path) : Bool :=
  (g.along root p.holderRoute).any (accepts · p.last)

theorem accepts_sequence (kind : SequenceKind) (id id' : NodeId) (s : Segment) :
    accepts (.sequence kind id) s = accepts (.sequence kind id') s := by
  unfold accepts
  cases s.selector.slot? with
  | none => rfl
  | some slot => cases slot <;> rfl

theorem accepted_grown {p : Path} (standing : Standing g root p)
    (grows : g.Grows root g' root') : accepted g' root' p = accepted g root p := by
  obtain ⟨h, arrives, value, -⟩ := standing
  rcases grows.kept arrives value with kept | ⟨id, id', rfl, longer⟩
  · rw [accepted, accepted, kept, arrives]
  · rw [accepted, accepted, longer, arrives, Option.any_some, Option.any_some,
      accepts_sequence]

/-- An entry of the queue waits: what takes its value is there, and an owner with names is in its place. -/
structure Waits (g : Graph) (root : Value) (e : PendingWrite) : Prop where
  wellFormed : e.field.path.WellFormed
  single : e.field.path.hasWildcard = false
  standing : Standing g root e.field.path
  atRoot : e.owner = none → e.field.path.tail = []
  owner : ∀ v, e.owner = some v → e.field.path.tail ≠ [] ∧
    (v.holdsNames → g.along root e.field.path.ownerRoute = some v) ∧
    (e.field.path.last.isCollection → e.field.path.last.name ≠ "" → v.holdsNames) ∧
    (v.holdsNames = false → e.field.path.last.isCollection = false →
      accepted g root e.field.path = false)

theorem Waits.grown {e : PendingWrite} (waits : Waits g root e) (grows : g.Grows root g' root') :
    Waits g' root' e where
  wellFormed := waits.wellFormed
  single := waits.single
  standing := waits.standing.grown grows
  atRoot := waits.atRoot
  owner v hv := by
    obtain ⟨below, place, names, other⟩ := waits.owner v hv
    refine ⟨below, fun h => grows.kept_names (place h) h, names, fun h plain => ?_⟩
    rw [accepted_grown waits.standing grows, other h plain]

/-- What has been prepared for a path is what an entry needs. -/
theorem Prepared.waits {path : Path} {owner : Option Value} (prepared : Prepared g root path owner)
    (wellFormed : path.WellFormed) (single : path.hasWildcard = false) (value : root ≠ .null)
    {e : PendingWrite} (samePath : e.field.path = path) (sameOwner : e.owner = owner) :
    Waits g root e := by
  subst samePath sameOwner
  cases howner : e.owner with
  | none =>
    rw [howner] at prepared
    obtain ⟨atRoot, addressable⟩ := prepared
    have last := Path.last_of_root atRoot
    have holder := wellFormed.holderRoute_of_root atRoot
    refine ⟨wellFormed, single, ⟨root, by rw [holder]; rfl, value, ?_⟩, fun _ => atRoot, ?_⟩
    · rwa [last]
    · rintro v hv
      rw [howner] at hv
      cases hv
  | some v =>
    rw [howner] at prepared
    obtain ⟨below, arrives, v_value, collection⟩ := prepared
    have arrives' : g.along root e.field.path.ownerRoute = some v := arrives
    by_cases bracketed : e.field.path.last.isCollection
    · obtain ⟨c, found, c_value, names, addressable⟩ := collection bracketed
      refine ⟨wellFormed, single, ⟨c, ?_, c_value, addressable⟩, by simp [howner], ?_⟩
      · rw [Path.holderRoute, if_pos bracketed]
        exact found
      · rintro _ same
        rw [howner] at same
        cases same
        exact ⟨below, fun _ => arrives', fun _ => names, fun _ plain => by simp [bracketed] at plain⟩
    · have plain : e.field.path.last.isCollection = false := by simpa using bracketed
      have holder : e.field.path.holderRoute = e.field.path.ownerRoute := by
        simp [Path.holderRoute, plain]
      have brackets : e.field.path.last.selector = .plain := by
        cases selector : e.field.path.last.selector <;>
          simp_all [Segment.isCollection, Selector.bracket?]
      refine ⟨wellFormed, single, ⟨v, by rw [holder, arrives'], v_value, ?_⟩, by simp [howner], ?_⟩
      · simp [brackets, Selector.index?]
      · rintro _ same
        rw [howner] at same
        cases same
        refine ⟨below, fun _ => arrives', by simp [plain], fun names _ => ?_⟩
        simp [accepted, holder, arrives', accepts, brackets, Selector.slot?, names]

/-! ## Storing an entry -/

theorem setItems_self {id : NodeId} (has : id < g.sequences.size) :
    g.setItems id (g.sequence id).items = g := by
  simp only [setItems, Graph.sequence, Store.set_get_self has]

/-- A collection that is large enough is not changed. -/
theorem grow_of_addressable {c : Value} {n : Nat} (has : g.Has c) (addressable : Addressable g c n) :
    g.grow c n = none ∨ g.grow c n = some (c, g) := by
  cases c with
  | sequence kind id =>
    have bound := addressable kind id rfl
    cases kind with
    | list =>
      have full : padded (g.sequence id).items n = (g.sequence id).items := padded_of_lt bound
      exact .inr (by rw [Graph.grow, full, setItems_self has])
    | array => exact .inr (if_pos bound)
  | _ => exact .inl rfl

theorem grow_run {path : Path} {owner c : Value} {s : Segment} (has : g.Has c)
    (addressable : ∀ n, s.selector.index? = some n → Addressable g c n) (r : Registry) :
    (grow r path owner s c).run g = (.ok c, g) := by
  by_cases enough : ∀ n, s.selector.index? = some n → g.grow c n = none
  · exact (GrowRun.kept enough).run_eq
  obtain ⟨n, hindex, short⟩ : ∃ n, s.selector.index? = some n ∧ g.grow c n ≠ none := by simpa using enough
  exact (GrowRun.widened hindex ((grow_of_addressable has (addressable n hindex)).resolve_left short)).run_eq

theorem growRoot_run {w : Writer} {n : Nat} (has : w.graph.Has w.root)
    (addressable : Addressable w.graph w.root n) : growRoot n w = (⟨⟩, w) := by
  rcases grow_of_addressable has addressable with none | some
  · exact growRoot_kept none
  · exact growRoot_grown some

theorem Path.followed_ne_nil {p : Path} (below : p.tail ≠ []) : p.followed ≠ [] := by
  unfold Path.followed
  split
  · simp [Path.segments]
  · exact below

/-- What stands ready to take a value in one document does so in the other. -/
theorem takes_of_fits (ahead : Ahead es root g f) {π : List String} {h : Value} {s : Segment}
    {slot : Slot} (hslot : s.selector.slot? = some slot) (arrives : g.along root π = some h)
    (addressable : ∀ n, s.selector.index? = some n → Addressable g h n) (hfits : fits h slot) :
    (h.holdsNames ∨ (g.slot? h (Graph.label slot)).isSome) ∧ f.Takes h slot := by
  have holds : h.holdsNames ∨ (g.slot? h (Graph.label slot)).isSome := by
    cases h with
    | sequence kind id =>
      cases slot with
      | key key => cases hfits
      | index n =>
        have bound := addressable n (index?_eq_some hslot) kind id rfl
        rw [Graph.label, slot?_sequence_text, isSome_getElem?]
        exact .inr bound
    | map id => exact .inl rfl
    | _ => cases slot <;> cases hfits
  refine ⟨holds, hfits, ?_⟩
  by_cases names : h.holdsNames
  · exact .inl names
  · rw [isSome_slot ahead arrives names]
    exact holds

theorem addressable_ahead (ahead : Ahead es root g f) {π : List String} {h : Value} {n : Nat}
    (arrives : g.along root π = some h) (addressable : Addressable g h n) : Addressable f h n := by
  rintro kind id rfl
  rw [length_eq ahead arrives]
  exact addressable kind id rfl

/-- One more value is stored in a graph that is ahead of another, and nothing has changed that is in no place. -/
structure Further (es : Stores) (root : Value) (g f f' : Graph) (route : List String) (v : Value) :
    Prop where
  ahead : Ahead (es ++ [(route, v)]) root g f'
  spares : ∀ u, g.Outside root u → f'.node u = f.node u

theorem Further.store (ahead : Ahead es root g f) {ρ : List String} {x v : Value} {label : String}
    (arrives : g.along root ρ = some x) (node : x.address? ≠ none)
    (holds : x.holdsNames ∨ (g.slot? x label).isSome) (put : f.Rewrites f' x (onlyAt label v)) :
    Further es root g f f' (ρ ++ [label]) v where
  ahead := ahead.store arrives node holds put
  spares u outside := by
    refine put.kept u fun same => ?_
    exact absurd (outside ρ x arrives same.symm) (same ▸ node)

/-- In the empty registry a value is stored below its owner exactly if what is in its place takes it. -/
theorem storeChild_placed (ahead : Ahead es root g f) {path : Path} (below : path.tail ≠ [])
    (single : path.hasWildcard = false) {owner h : Value}
    (place : g.along root path.ownerRoute = some owner)
    (arrives : g.along root path.holderRoute = some h) (value : h ≠ .null)
    (addressable : ∀ n, path.last.selector.index? = some n → Addressable g h n)
    (names : path.last.isCollection → path.last.name ≠ "" → owner.holdsNames)
    (clear : ∀ q τ, τ ≠ [] → q ++ τ = path.route → es.at? q = none) (target : Option TypeTag)
    (v : Value) :
    if accepts h path.last then
      ∃ f', (storeChild .empty path target owner v).run f = (.ok ⟨⟩, f') ∧
        Further es root g f f' path.placeRoute v
    else ∃ fault, (storeChild .empty path target owner v).run f = (.error fault, f) := by
  have more := Path.followed_ne_nil below
  by_cases collection : path.last.isCollection
  case neg =>
    have plain : path.last.isCollection = false := by simpa using collection
    have holder : path.holderRoute = path.ownerRoute := by simp [Path.holderRoute, plain]
    obtain rfl := Option.some.inj (place.symm.trans (holder ▸ arrives))
    rw [storeChild_of_plain plain, accepts, slot?_eq_none plain]
    by_cases owns : owner.holdsNames
    · obtain ⟨f', set, put⟩ := Registry.setChild_empty
        ((ahead.has owner).2 (ahead.tree.has_of_along arrives)) owns path.last.name v
        (if v.isNull then target else some (f.tagOf v))
      rw [if_pos owns, Path.placeRoute, slot?_eq_none plain]
      exact ⟨f', set, .store ahead arrives (Value.address_of_holdsNames owns) (.inl owns) put⟩
    · rw [if_neg owns]
      exact ⟨_, Registry.setChild_empty_error f _ owns _ _⟩
  obtain ⟨slot, hslot⟩ := slot?_of_single collection (Path.last_single single)
  have child : (Registry.empty.child owner path.last.name).run f = (.ok h, f) := by
    rw [Path.holderRoute, if_pos collection] at arrives
    by_cases named : path.last.name = ""
    · rw [Segment.names_of_eq named, List.append_nil, place, Option.some.injEq] at arrives
      rw [Registry.child_empty, if_pos named, arrives]
    · have route := Path.route_of_slot more hslot
      rw [Path.holderRoute, if_pos collection, Segment.names_of_ne named] at route
      have same := ahead.slot _ owner path.last.name place
      rw [clear _ [Graph.label slot] (by simp) route.symm, Option.none_or] at same
      rw [Segment.names_of_ne named, along_concat, place, Option.bind_some] at arrives
      rw [Registry.child_empty, if_neg named, if_pos (names collection named), same, arrives,
        Option.getD_some]
  have has' := (ahead.has h).2 (ahead.tree.has_of_along arrives)
  have grown : (grow .empty path owner path.last h).run f = (.ok h, f) :=
    grow_run has' (fun n hn => addressable_ahead ahead arrives (addressable n hn)) .empty
  rw [accepts, hslot]
  by_cases hfits : fits h slot
  · obtain ⟨holds, takes⟩ := takes_of_fits ahead hslot arrives addressable hfits
    obtain ⟨f', set, put⟩ := storeElement_takes path has' takes v
    rw [if_pos hfits]
    refine ⟨f', (StoreRun.stored collection hslot child value grown set).run_eq, ?_⟩
    rw [Path.placeRoute, hslot]
    exact .store ahead arrives (address_of_fits hfits) holds put
  · have misfit := storeElement_misfit path (fun takes : f.Takes h slot => hfits takes.1) v
    rw [if_neg hfits]
    exact ⟨_, (StoreRun.refused collection hslot child value grown misfit).run_eq⟩

/-- In the empty registry an entry below the root is stored exactly if what is in its place takes it. -/
theorem storeChild_ahead (ahead : Ahead es root g f) {e : PendingWrite} (waits : Waits g root e)
    {owner : Value} (howner : e.owner = some owner) (named : e.field.path.last.name ≠ "")
    (clear : ∀ q τ, τ ≠ [] → q ++ τ = e.field.path.route → es.at? q = none) (v : Value) :
    if accepted g root e.field.path then
      ∃ f', (storeChild .empty e.field.path e.target owner v).run f = (.ok ⟨⟩, f') ∧
        Further es root g f f' e.field.path.route v
    else ∃ fault, (storeChild .empty e.field.path e.target owner v).run f = (.error fault, f) := by
  obtain ⟨h, arrives, value, addressable⟩ := waits.standing
  obtain ⟨below, place, names, other⟩ := waits.owner owner howner
  by_cases owns : owner.holdsNames
  · have route : e.field.path.placeRoute = e.field.path.route := by
      have more := Path.followed_ne_nil below
      by_cases collection : e.field.path.last.isCollection
      · obtain ⟨slot, hslot⟩ := slot?_of_single collection (Path.last_single waits.single)
        exact Path.placeRoute_of_slot more hslot
      · exact Path.placeRoute_of_name more (by simpa using collection) named
    rw [accepted, arrives, Option.any_some, ← route]
    exact storeChild_placed ahead below waits.single (place owns) arrives value addressable names clear
      e.target v
  · have plain : e.field.path.last.isCollection = false := by
      by_contra collection
      exact owns (names (by simpa using collection) named)
    rw [other (by simpa using owns) plain, if_neg (by simp), storeChild_of_plain plain]
    exact ⟨_, Registry.setChild_empty_error f _ owns _ _⟩

/-- The same of an entry at an element of the root. -/
theorem storeRoot_ahead {w : Writer} (ahead : Ahead es w.root g w.graph) {e : PendingWrite}
    (waits : Waits g w.root e) (howner : e.owner = none) (nonempty : e.field.path.followed ≠ [])
    (v : Value) :
    if accepted g w.root e.field.path then
      ∃ f', (storeRoot e.field.path e.field.path.last v).run w = (.ok ⟨⟩, { w with graph := f' }) ∧
        Further es w.root g w.graph f' e.field.path.route v
    else ∃ fault, (storeRoot e.field.path e.field.path.last v).run w = (.error fault, w) := by
  obtain ⟨h, arrives, value, addressable⟩ := waits.standing
  have atRoot := waits.atRoot howner
  have last := Path.last_of_root atRoot
  have bracketed : e.field.path.head.isCollection := by
    by_contra plain
    simp [Path.followed, plain, atRoot] at nonempty
  have holder := waits.wellFormed.holderRoute_of_root atRoot
  obtain ⟨slot, hslot⟩ := slot?_of_single (last ▸ bracketed) (Path.last_single waits.single)
  rw [holder, along_nil, Option.some.injEq] at arrives
  subst arrives
  have arrives : g.along w.root [] = some w.root := rfl
  have has' := (ahead.has w.root).2 ahead.tree.has
  have place : w.withRootPlace slot = w := by
    cases slot with
    | key key => rfl
    | index n =>
      have bound := addressable_ahead ahead arrives (addressable n (index?_eq_some hslot))
      rw [withRootPlace, growRoot_run has' bound]
  have accepted_eq : accepted g w.root e.field.path = fits w.root slot := by
    rw [accepted, holder, along_nil, Option.any_some, accepts, hslot]
  rw [storeRoot_of_slot hslot, accepted_eq, place]
  by_cases hfits : fits w.root slot
  · obtain ⟨holds, takes⟩ := takes_of_fits ahead hslot arrives addressable hfits
    obtain ⟨f', set, put⟩ := storeElement_takes e.field.path has' takes v
    simp only [hfits, if_true, set]
    refine ⟨f', rfl, ?_⟩
    rw [Path.route_of_slot nonempty hslot, holder]
    exact .store ahead arrives (address_of_fits hfits) holds put
  · have misfit := storeElement_misfit e.field.path
      (fun takes : w.graph.Takes w.root slot => hfits takes.1) v
    simp only [hfits, Bool.false_eq_true, if_false, misfit]
    exact ⟨_, rfl⟩

/-- In the empty registry an entry is stored exactly if what is in its place takes it. -/
theorem apply_ahead {w : Writer} (ahead : Ahead es w.root g w.graph) {e : PendingWrite}
    (waits : Waits g w.root e) (nonempty : e.field.path.followed ≠ [])
    (named : ∀ s ∈ e.field.path.tail, s.name ≠ "")
    (clear : ∀ q τ, τ ≠ [] → q ++ τ = e.field.path.route → es.at? q = none) (v : Value) :
    if accepted g w.root e.field.path then
      ∃ f', (apply .empty e v).run w = (.ok ⟨⟩, { w with graph := f' }) ∧
        Further es w.root g w.graph f' e.field.path.route v
    else ∃ fault, (apply .empty e v).run w = (.error fault, w) := by
  unfold apply
  cases howner : e.owner with
  | none => exact storeRoot_ahead ahead waits howner nonempty v
  | some owner =>
    have below := (waits.owner owner howner).1
    have stored := storeChild_ahead ahead waits howner (named _ (Path.last_mem_tail below)) clear v
    simp only [onGraph_run]
    by_cases takes : accepted g w.root e.field.path
    · simp only [takes, if_true] at stored ⊢
      obtain ⟨f', run, ahead'⟩ := stored
      exact ⟨f', by rw [run], ahead'⟩
    · simp only [takes, Bool.false_eq_true, if_false] at stored ⊢
      obtain ⟨fault, run⟩ := stored
      exact ⟨fault, by rw [run]⟩

/-! ## Queueing -/

/-- The type of a place is the same in both documents. -/
theorem targetOf_alongside (ahead : Ahead es root g f) {field : Field} {owner : Option Value}
    (prepared : Prepared g root field.path owner) (single : field.path.hasWildcard = false)
    (clear : ∀ q τ, τ ≠ [] → q ++ τ = field.path.route → es.at? q = none)
    (hint : Option TypeTag) :
    ∃ target, (targetOf .empty root field owner hint).run g = (.ok target, g) ∧
      (targetOf .empty root field owner hint).run f = (.ok target, f) := by
  unfold targetOf
  cases field.type with
  | some declared => exact ⟨some declared, rfl, rfl⟩
  | none =>
    cases owner with
    | none =>
      simp only [Running.run_bind, Running.run_get, Running.run_pure]
      rw [elementType?_congr (ahead.kind [] root rfl)]
      exact ⟨_, rfl, rfl⟩
    | some owner =>
      obtain ⟨below, arrives, value, collection⟩ := prepared
      have more := Path.followed_ne_nil below
      by_cases bracketed : field.path.last.isCollection
      case neg =>
        simp only [bracketed, Bool.false_eq_true, if_false, Running.run_bind, Running.run_get,
          Running.run_pure]
        rw [Registry.childType?_congr (ahead.kind _ owner arrives)]
        exact ⟨_, rfl, rfl⟩
      obtain ⟨c, found, c_value, names, -⟩ := collection bracketed
      obtain ⟨slot, hslot⟩ := slot?_of_single bracketed (Path.last_single single)
      have child : (Registry.empty.child owner field.path.last.name).run g = (.ok c, g) ∧
          (Registry.empty.child owner field.path.last.name).run f = (.ok c, f) := by
        by_cases named : field.path.last.name = ""
        · rw [Segment.names_of_eq named, List.append_nil, arrives, Option.some.injEq] at found
          rw [Registry.child_empty, Registry.child_empty, if_pos named, if_pos named, found]
          exact ⟨rfl, rfl⟩
        · have route := Path.route_of_slot more hslot
          rw [Path.holderRoute, if_pos bracketed, Segment.names_of_ne named] at route
          have same := ahead.slot _ owner field.path.last.name arrives
          rw [clear _ [Graph.label slot] (by simp) route.symm, Option.none_or] at same
          rw [Segment.names_of_ne named, along_concat, arrives, Option.bind_some] at found
          rw [Registry.child_empty, Registry.child_empty, if_neg named, if_neg named,
            if_pos (names named), if_pos (names named), same, found, Option.getD_some]
          exact ⟨rfl, rfl⟩
      simp only [bracketed, if_true, Running.run_bind, child.1, child.2, Running.run_get,
        Running.run_pure]
      rw [elementType?_congr (ahead.kind _ c found)]
      exact ⟨_, rfl, rfl⟩

/-- In the empty registry everything can be queued whose type is found, in the form to which it is converted. -/
theorem populate_of_coerce {w : Writer} {zone : Zone} {field : Field} {owner : Option Value}
    {target : Option TypeTag} {value : Value} {audits : List Audit}
    (found : (targetOf .empty w.root field owner
      (if field.value.isNull then none else some (w.graph.tagOf field.value))).run w.graph =
        (.ok target, w.graph))
    (coerce : coerce zone field target w = (value, { w with audits })) :
    (populate .empty zone field owner).run w = (.ok ⟨⟩, { w with
      pending := w.pending ++ [⟨{ field with value }, owner, target⟩]
      audits }) := by
  have checked : ∀ hint, placeCheck .empty w.graph owner field.path.last hint = .ok ⟨⟩ := by
    intro hint
    unfold placeCheck
    split
    · split
      · rfl
      · exact Registry.requirePlace_empty ..
    · rfl
  obtain ⟨rfl, same⟩ := Prod.mk.inj ((coerce_eq zone field target w).symm.trans coerce)
  have remarks : w.audits ++ conversionRemarks w.graph zone field target = audits := congrArg Writer.audits same
  simp only [populate_eq, hintOf, found, checked, remarks]

theorem populate_run {w : Writer} (zone : Zone) {field : Field} {owner : Option Value}
    {target : Option TypeTag}
    (found : (targetOf .empty w.root field owner
      (if field.value.isNull then none else some (w.graph.tagOf field.value))).run w.graph =
        (.ok target, w.graph)) :
    (populate .empty zone field owner).run w = (.ok ⟨⟩, { w with
      pending := w.pending ++
        [⟨{ field with value := coerced w.graph zone field target }, owner, target⟩]
      audits := w.audits ++ conversionRemarks w.graph zone field target }) :=
  populate_of_coerce found (coerce_eq zone field target w)

/-- In two documents of which one is ahead the same entry is queued. -/
theorem populate_alongside {w u : Writer} (same : u.root = w.root)
    (ahead : Ahead es w.root w.graph u.graph) {zone : Zone} {field : Field}
    {owner : Option Value} (prepared : Prepared w.graph w.root field.path owner)
    (single : field.path.hasWildcard = false)
    (clear : ∀ q τ, τ ≠ [] → q ++ τ = field.path.route → es.at? q = none)
    (leaf : field.value.address? = none) :
    ∃ target audits audits',
      (populate .empty zone field owner).run w = (.ok ⟨⟩, { w with
        pending := w.pending ++
          [⟨{ field with value := coerced w.graph zone field target }, owner, target⟩]
        audits }) ∧
      (populate .empty zone field owner).run u = (.ok ⟨⟩, { u with
        pending := u.pending ++
          [⟨{ field with value := coerced w.graph zone field target }, owner, target⟩]
        audits := audits' }) := by
  have hint : u.graph.tagOf field.value = w.graph.tagOf field.value := by
    cases h : field.value <;> simp_all [Value.address?, tagOf]
  obtain ⟨target, found, found'⟩ := targetOf_alongside ahead prepared single clear
    (if field.value.isNull then none else some (w.graph.tagOf field.value))
  rw [← same, ← hint] at found'
  have run := populate_run zone found
  have run' := populate_run zone found'
  rw [coerced_congr leaf w.graph u.graph] at run'
  exact ⟨target, _, _, run, run'⟩

end Writer

end FieldBinding
