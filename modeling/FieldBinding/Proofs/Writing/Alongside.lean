import FieldBinding.Proofs.Reading.Places
import FieldBinding.Proofs.Writing.Preparing
import FieldBinding.Proofs.Writing.Untyped

/-!
# Writing alongside

The same path is prepared in two documents, one of which is ahead of the other by some stored values.  No route of
a stored value ends in front of the last label of the path.  Then the writer never looks at a place that differs,
and makes the same changes in both.

Main results:

* `Writer.ownerFrom_alongside` — the walk along a path gives the same owner or the same failure.
* `Writer.prepare_alongside` — so does all of the preparation, and the owner is ready for the last segment.
-/

namespace FieldBinding

open FieldBinding.Graph

/-! ## Routes of paths -/

namespace Segment

/-- The label that the name of a segment stands for; the empty name stays where it is. -/
def names (s : Segment) : List String :=
  if s.name = "" then [] else [s.name]

/-- The labels that a segment stands for: its name, and the place in its brackets. -/
def labels (s : Segment) : List String :=
  s.names ++ (s.selector.slot?.map Graph.label).toList

theorem names_of_ne {s : Segment} (named : s.name ≠ "") : s.names = [s.name] :=
  if_neg named

theorem names_of_eq {s : Segment} (unnamed : s.name = "") : s.names = [] :=
  if_pos unnamed

end Segment

/-- The labels that a path stands for. -/
def Path.route (p : Path) : List String :=
  p.followed.flatMap Segment.labels

/-- The labels in front of the last segment of a path. -/
def Path.ownerRoute (p : Path) : List String :=
  p.followed.dropLast.flatMap Segment.labels

variable {g f : Graph} {root : Value} {es : Stores}

/-! ## Two runs -/

/-- Two computations on graphs of which one is ahead come to the same result, and the graphs have grown
alike. -/
def Alongside {α : Type} (es : Stores) (root : Value) (g f : Graph) (x y : Step α)
    (post : α → Graph → Prop) : Prop :=
  ∃ result g' f', x.run g = (result, g') ∧ y.run f = (result, f') ∧ Ahead es root g' f' ∧
    g.Grows root g' root ∧ ∀ a, result = .ok a → post a g'

namespace Alongside

variable {α β : Type} {post : α → Graph → Prop}

/-- Nothing is changed, and an answer is given. -/
theorem runs {x y : Step α} {a : α} (run : x.run g = (.ok a, g)) (run' : y.run f = (.ok a, f))
    (ahead : Ahead es root g f) (h : post a g) : Alongside es root g f x y post :=
  ⟨.ok a, g, f, run, run', ahead, .refl g root, fun _ same => Except.ok.inj same ▸ h⟩

/-- Nothing is changed, and no answer is given. -/
theorem fails {x y : Step α} {e : BindError} (run : x.run g = (.error e, g)) (run' : y.run f = (.error e, f))
    (ahead : Ahead es root g f) : Alongside es root g f x y post :=
  ⟨.error e, g, f, run, run', ahead, .refl g root, fun _ same => by cases same⟩

theorem pure (ahead : Ahead es root g f) {a : α} (h : post a g) :
    Alongside es root g f (pure a) (pure a) post :=
  .runs rfl rfl ahead h

theorem mono {x y : Step α} {post' : α → Graph → Prop} (h : Alongside es root g f x y post)
    (weaker : ∀ a g', post a g' → post' a g') : Alongside es root g f x y post' := by
  obtain ⟨result, g₁, f₁, run, run', ahead, grows, after⟩ := h
  exact ⟨result, g₁, f₁, run, run', ahead, grows, fun a same => weaker a g₁ (after a same)⟩

theorem bind {x y : Step α} {k l : α → Step β} {post' : β → Graph → Prop}
    (first : Alongside es root g f x y post)
    (next : ∀ a g' f', Ahead es root g' f' → g.Grows root g' root → post a g' →
      Alongside es root g' f' (k a) (l a) post') :
    Alongside es root g f (x >>= k) (y >>= l) post' := by
  obtain ⟨result, g₁, f₁, run, run', ahead, grows, h⟩ := first
  cases result with
  | error e =>
    refine ⟨.error e, g₁, f₁, ?_, ?_, ahead, grows, fun _ same => by cases same⟩
    · simp only [Running.run_bind, run]
    · simp only [Running.run_bind, run']
  | ok a =>
    obtain ⟨result, g₂, f₂, run₂, run₂', ahead₂, grows₂, h₂⟩ := next a g₁ f₁ ahead grows (h a rfl)
    refine ⟨result, g₂, f₂, ?_, ?_, ahead₂, grows.trans grows₂, h₂⟩
    · simp only [Running.run_bind, run, run₂]
    · simp only [Running.run_bind, run', run₂']

end Alongside

namespace Writer

/-- The slots of a new empty node for a place where nothing was. -/
theorem continues_of_missing {n : Node} {π : List String} (none : ∀ label, n.slot? label = none)
    (missing : g.along root π = .none ∨ g.along root π = some .null) : g.Continues root π n := by
  intro label
  left
  rw [none, along_concat]
  rcases missing with h | h <;> rw [h] <;> rfl

/-- Nothing has been stored below a place where nothing is. -/
theorem at?_below_missing (ahead : Ahead es root g f) {π : List String}
    (missing : g.along root π = none ∨ g.along root π = some .null) (label : String) :
    es.at? (π ++ [label]) = none := by
  by_contra some
  obtain ⟨v, hv⟩ := Option.ne_none_iff_exists'.1 some
  obtain ⟨u, arrives, value⟩ := (ahead.held _ (Stores.mem_of_at? hv)).front_ne_null
  rcases missing with h | h <;> rw [h] at arrives
  · cases arrives
  · exact value (Option.some.inj arrives).symm

/-- A new node is put under a name in both documents. -/
theorem setChild_alongside (ahead : Ahead es root g f) {ρ : List String} {owner c : Value} {name : String}
    {n m : Node} {g₁ f₁ : Graph} (arrives : g.along root ρ = some owner) (names : owner.holdsNames)
    (adds : g.Adds g₁ c n) (adds' : f.Adds f₁ c m) (kind : m.kind = n.kind)
    (continues : g.Continues root (ρ ++ [name]) n)
    (slots : ∀ other, m.slot? other = (es.at? (ρ ++ [name] ++ [other])).or (n.slot? other))
    (free : es.at? (ρ ++ [name]) = none)
    (before : g.along root (ρ ++ [name]) = none ∨ g.along root (ρ ++ [name]) = some .null ∨
      ∃ id id', g.along root (ρ ++ [name]) = some (.sequence .array id) ∧ c = .sequence .array id') :
    ∃ g₂ f₂, (Registry.empty.setChild owner name c (some (g₁.tagOf c))).run g₁ = (.ok ⟨⟩, g₂) ∧
      (Registry.empty.setChild owner name c (some (f₁.tagOf c))).run f₁ = (.ok ⟨⟩, f₂) ∧
      g₁.Rewrites g₂ owner (onlyAt name c) ∧ Ahead es root g₂ f₂ ∧ g.Grows root g₂ root ∧
      g₂.along root (ρ ++ [name]) = some c := by
  have has := ahead.tree.has_of_along arrives
  obtain ⟨g₂, set, put⟩ := Registry.setChild_empty ((adds.has owner).2 (.inl has)) names name c
    (some (g₁.tagOf c))
  obtain ⟨f₂, set', put'⟩ := Registry.setChild_empty ((adds'.has owner).2 (.inl ((ahead.has owner).2 has))) names
    name c (some (f₁.tagOf c))
  exact ⟨g₂, f₂, set, set', put, ahead.graft arrives (Value.address_of_holdsNames names) adds adds' put put' kind
    continues slots free before⟩

/-- The child of a segment is there in both documents. -/
theorem childOrCreate_alongside (ahead : Ahead es root g f) {path : Path} {ρ : List String}
    {v : Value} {s : Segment} {next : Option Segment} (arrives : g.along root ρ = some v)
    (value : v ≠ .null) (free : s.name ≠ "" → es.at? (ρ ++ [s.name]) = none) :
    Alongside es root g f (childOrCreate .empty path v s next) (childOrCreate .empty path v s next)
      fun c g' => g'.along root ρ = some v ∧ g'.along root (ρ ++ s.names) = some c ∧ c ≠ .null ∧
        (s.name ≠ "" → v.holdsNames) := by
  by_cases named : s.name = ""
  · exact .runs (ChildRun.unnamed named).run_eq (ChildRun.unnamed named).run_eq ahead
      ⟨arrives, by rwa [Segment.names_of_eq named, List.append_nil], value, fun other => absurd named other⟩
  by_cases names : v.holdsNames
  case neg =>
    exact .fails (ChildRun.lost named (Registry.child_empty_error g named names)).run_eq
      (ChildRun.lost named (Registry.child_empty_error f named names)).run_eq ahead
  have slot := ahead.slot ρ v s.name arrives
  rw [free named, Option.none_or] at slot
  have child := Registry.child_empty_of_names g named names
  have child' := Registry.child_empty_of_names f named names
  rw [slot] at child'
  by_cases missing : (g.slot? v s.name).getD .null = .null
  case neg =>
    refine .runs (ChildRun.found named child missing).run_eq (ChildRun.found named child' missing).run_eq ahead
      ⟨arrives, ?_, missing, fun _ => names⟩
    rw [Segment.names_of_ne named, along_concat, arrives, Option.bind_some]
    exact slot?_of_getD missing
  rw [missing] at child child'
  have before := along_of_missing arrives missing
  have declared := Registry.childType?_congr (ahead.kind ρ v arrives) .empty s.name none
  rcases newChild_alike path (Registry.empty.childType? g v s.name none) s next g f ahead.has with
    ⟨e, run, run'⟩ | ⟨c, n, g₁, f₁, run, run', adds, adds', none⟩
  · exact .fails (ChildRun.unmade named child run).run_eq
      (ChildRun.unmade named child' (declared.symm ▸ run')).run_eq ahead
  obtain ⟨g₂, f₂, set, set', -, ahead', grows, placed⟩ := setChild_alongside ahead arrives names adds adds' rfl
    (continues_of_missing none before) (fun label => by rw [at?_below_missing ahead before, none]; rfl) (free named)
    (before.imp_right .inl)
  refine ⟨.ok c, g₂, f₂, (ChildRun.made named child run set).run_eq,
    (ChildRun.made named child' (declared.symm ▸ run') set').run_eq, ahead', grows, ?_⟩
  rintro d same
  obtain rfl := Except.ok.inj same
  refine ⟨grows.kept_names arrives names, by rwa [Segment.names_of_ne named], ?_, fun _ => names⟩
  rintro rfl
  exact adds.new trivial

/-! ## Elements -/

/-- A value that has no names has the same slots in both. -/
theorem isSome_slot (ahead : Ahead es root g f) {π : List String} {c : Value}
    (arrives : g.along root π = some c) (names : ¬c.holdsNames) (label : String) :
    (f.slot? c label).isSome = (g.slot? c label).isSome := by
  rw [ahead.slot π c label arrives]
  cases stored : es.at? (π ++ [label]) with
  | none => rfl
  | some v =>
    obtain ⟨u, found, holds⟩ := (ahead.held _ (Stores.mem_of_at? stored)).at_end
    obtain rfl := Option.some.inj (arrives.symm.trans found)
    rw [holds.resolve_left names]
    rfl

theorem length_eq (ahead : Ahead es root g f) {π : List String} {kind : SequenceKind} {id : NodeId}
    (arrives : g.along root π = some (.sequence kind id)) :
    (f.sequence id).items.length = (g.sequence id).items.length := by
  have same : ∀ n, n < (f.sequence id).items.length ↔ n < (g.sequence id).items.length := by
    intro n
    have slots := isSome_slot ahead arrives (by simp [Value.holdsNames]) (Numeral.text n)
    rw [slot?_sequence_text, slot?_sequence_text] at slots
    rw [Bool.eq_iff_iff] at slots
    simpa only [isSome_getElem?] using slots
  exact Nat.le_antisymm (Nat.le_of_not_lt fun lt => Nat.lt_irrefl _ ((same _).1 lt))
    (Nat.le_of_not_lt fun lt => Nat.lt_irrefl _ ((same _).2 lt))

theorem misfit_eq (ahead : Ahead es root g f) {π : List String} {c : Value}
    (arrives : g.along root π = some c) (path : Path) (slot : Slot) :
    f.misfit path c slot = g.misfit path c slot := by
  have tag := tagOf_congr (ahead.kind π c arrives)
  cases c with
  | sequence kind id =>
    cases slot with
    | index n => simp only [misfit, length_eq ahead arrives]
    | key key => simp only [misfit, tag]
  | _ => cases slot <;> simp only [misfit, tag]

/-- The element of a segment is there in both documents. -/
theorem elementOrCreate_alongside (ahead : Ahead es root g f) (path : Path)
    (next : Option Segment) {π : List String} {c : Value} {s : Segment} {slot : Slot}
    (hslot : s.selector.slot? = some slot) (arrives : g.along root π = some c)
    (free : es.at? (π ++ [label slot]) = none) :
    Alongside es root g f (elementOrCreate .empty path c s next)
      (elementOrCreate .empty path c s next)
      fun w g' => g'.along root (π ++ [label slot]) = some w ∧ w ≠ .null := by
  have same := ahead.slot π c (label slot) arrives
  rw [free, Option.none_or] at same
  have element : f.elementAt c slot = g.elementAt c slot := by rw [elementAt_eq, elementAt_eq, same]
  by_cases missing : g.elementAt c slot = .null
  case neg =>
    refine .runs (ElementRun.found hslot missing).run_eq
      (element ▸ (ElementRun.found hslot (element.symm ▸ missing)).run_eq) ahead ⟨?_, missing⟩
    rw [along_concat, arrives, Option.bind_some, slot?_of_elementAt missing]
  have missing' := element.trans missing
  have type := elementType?_congr (ahead.kind π c arrives)
  rcases intermediate_alike path (g.elementType? c) next g f ahead.has with
    ⟨e, run, run'⟩ | ⟨w, n, g₁, f₁, run, run', adds, adds', none⟩
  · exact .fails (ElementRun.unmade hslot missing run).run_eq
      (ElementRun.unmade hslot missing' (type.symm ▸ run')).run_eq ahead
  rw [← type] at run'
  have has := ahead.tree.has_of_along arrives
  have has' := (ahead.has c).2 has
  obtain ⟨ahead₁, grows₁⟩ :=
    ahead.add adds adds' fun label d h => by simp [none] at h
  by_cases takes : g.Takes c slot
  case neg =>
    have takes₁ : ¬g₁.Takes c slot := by rwa [Takes, slot?, adds.kept c has]
    have takes₁' : ¬f₁.Takes c slot := by rwa [Takes, slot?, adds'.kept c has', ← slot?, same]
    have arrives₁ : g₁.along root π = some c := by
      have pads := ahead.tree.pads_of_adds adds fun label d h => by simp [none] at h
      rcases pads.places π with eq | ⟨absent, -⟩
      · rw [eq, arrives]
      · rw [arrives] at absent
        cases absent
    have fails := storeElement_misfit path takes₁ w
    have fails' := storeElement_misfit path takes₁' w
    rw [misfit_eq ahead₁ arrives₁] at fails'
    exact ⟨_, g₁, f₁, (ElementRun.unstored hslot missing run fails).run_eq,
      (ElementRun.unstored hslot missing' run' fails').run_eq, ahead₁, grows₁, fun _ same => by cases same⟩
  have takes₁ : g₁.Takes c slot := by rwa [Takes, slot?, adds.kept c has]
  have takes₁' : f₁.Takes c slot := by rwa [Takes, slot?, adds'.kept c has', ← slot?, same]
  obtain ⟨g₂, set, put⟩ := storeElement_takes path ((adds.has c).2 (.inl has)) takes₁ w
  obtain ⟨f₂, set', put'⟩ := storeElement_takes path ((adds'.has c).2 (.inl has')) takes₁' w
  have empty := missing
  rw [elementAt_eq, if_pos takes.1] at empty
  have before := along_of_missing arrives empty
  obtain ⟨ahead₂, grows₂, placed⟩ := ahead.graft arrives (address_of_fits takes.1) adds adds' put put' rfl
    (continues_of_missing none before)
    (fun label => by rw [at?_below_missing ahead before, none]; rfl) free (before.imp_right .inl)
  refine ⟨.ok w, g₂, f₂, (ElementRun.made hslot missing run set).run_eq,
    (ElementRun.made hslot missing' run' set').run_eq, ahead₂, grows₂, ?_⟩
  rintro d same
  obtain rfl := Except.ok.inj same
  refine ⟨placed, ?_⟩
  rintro rfl
  exact adds.new trivial

/-! ## Growth -/

theorem longer_continues {π : List String} {kind : SequenceKind} {id : NodeId}
    (arrives : g.along root π = some (.sequence kind id)) {index : Nat} (room : HasRoom (g.sequence id).items index) :
    g.Continues root π (.sequence (longer g id index)) := by
  intro other
  rw [slot?_longer room kind, along_concat, arrives, Option.bind_some]
  cases new : paddedAt (g.sequence id).items.length index other with
  | none => exact .inl (Option.none_or)
  | some d =>
    rw [eq_null_of_paddedAt new]
    exact .inr ⟨itemAt_eq_none_of_paddedAt new, rfl⟩

theorem longer_slots (ahead : Ahead es root g f) {π : List String} {kind : SequenceKind}
    {id : NodeId} (arrives : g.along root π = some (.sequence kind id)) {index : Nat}
    (room : HasRoom (g.sequence id).items index) (other : String) : (Node.sequence (longer f id index)).slot? other =
      (es.at? (π ++ [other])).or ((Node.sequence (longer g id index)).slot? other) := by
  have room' : HasRoom (f.sequence id).items index := by
    unfold HasRoom at room ⊢
    rwa [length_eq ahead arrives]
  rw [slot?_longer room' kind, slot?_longer room kind, length_eq ahead arrives, ahead.slot π _ other arrives]
  cases new : paddedAt (g.sequence id).items.length index other with
  | none => simp only [Option.none_or]
  | some d =>
    have absent : g.slot? (.sequence kind id) other = none := itemAt_eq_none_of_paddedAt new
    have free := isSome_slot ahead arrives (by simp [Value.holdsNames]) other
    rw [ahead.slot π _ other arrives, absent, Option.or_none] at free
    have none : es.at? (π ++ [other]) = none := by simpa using free
    simp only [none, Option.none_or, Option.some_or]

theorem longer_kind (ahead : Ahead es root g f) {π : List String} {kind : SequenceKind}
    {id : NodeId} (arrives : g.along root π = some (.sequence kind id)) (index : Nat) :
    (Node.sequence (longer f id index)).kind = (Node.sequence (longer g id index)).kind :=
  ahead.kind π _ arrives

/-- An index of a collection is addressable if the collection is not too short a sequence. -/
def Addressable (g : Graph) (c : Value) (n : Nat) : Prop :=
  ∀ kind id, c = .sequence kind id → n < (g.sequence id).items.length

/-- An array that is too short gets a successor of the same content in both documents. -/
def Succeeds (es : Stores) (root : Value) (g f : Graph) (π : List String) (c' : Value)
    (index : Nat) (g' f' : Graph) : Prop :=
  ∃ n m, g.Adds g' c' (.sequence n) ∧ f.Adds f' c' (.sequence m) ∧
    (Node.sequence m).kind = (Node.sequence n).kind ∧ g.Continues root π (.sequence n) ∧
    (∀ other, (Node.sequence m).slot? other =
      (es.at? (π ++ [other])).or ((Node.sequence n).slot? other)) ∧
    index < n.items.length

/-- An index of a collection can be made addressable. -/
def RoomIn (g : Graph) (c : Value) (n : Nat) : Prop :=
  ∀ kind id, c = .sequence kind id → HasRoom (g.sequence id).items n

/-- A collection is made large enough in the same way in both documents: it stays as it is, or is filled up in
place, or is an array that gets a successor. -/
theorem grow_both (ahead : Ahead es root g f) {π : List String} {c : Value}
    (arrives : g.along root π = some c) (value : c ≠ .null) {index : Nat} (room : RoomIn g c index) :
    (g.grow c index = none ∧ f.grow c index = none ∧ Addressable g c index) ∨
    (∃ g' f', g.grow c index = some (c, g') ∧ f.grow c index = some (c, f') ∧
      Ahead es root g' f' ∧ g.Grows root g' root ∧ g'.along root π = some c ∧
      Addressable g' c index) ∨
    ∃ id id' g' f', c = .sequence .array id ∧
      g.grow c index = some (.sequence .array id', g') ∧
      f.grow c index = some (.sequence .array id', f') ∧
      Succeeds es root g f π (.sequence .array id') index g' f' := by
  cases c with
  | sequence kind id =>
    have lengths := length_eq ahead arrives
    have has := ahead.tree.has_of_along arrives
    have has' := (ahead.has _).2 has
    have fit := room kind id rfl
    have fit' : HasRoom (f.sequence id).items index := by
      unfold HasRoom at fit ⊢
      rwa [lengths]
    cases kind with
    | list =>
      obtain ⟨ahead', grows⟩ := ahead.pad arrives (by simp [Value.address?])
        (by simp [Value.holdsNames]) (setItems_padded_rewrites has fit)
        (lengths ▸ setItems_padded_rewrites has' fit')
        fun label d h => ⟨eq_null_of_paddedAt h, itemAt_eq_none_of_paddedAt h⟩
      refine .inr (.inl ⟨_, _, rfl, rfl, ahead', grows, ?_, ?_⟩)
      · rcases grows.kept arrives value with kept | ⟨_, _, array, -⟩
        · exact kept
        · cases array
      · rintro kind' id' same
        cases same
        rw [sequence_setItems has]
        exact lt_length_padded_iff.2 fit
    | array =>
      by_cases bound : index < (g.sequence id).items.length
      · refine .inr (.inl ⟨g, f, if_pos bound, if_pos (lengths ▸ bound), ahead, .refl g root,
          arrives, ?_⟩)
        rintro kind' id' same
        cases same
        exact bound
      · have handle := newSequence_handle ahead.has .array (longer g id index) (longer f id index)
        have adds' := newSequence_adds f .array (longer f id index)
        rw [handle] at adds'
        refine .inr (.inr ⟨id, g.sequences.next, (g.newSequence .array (longer g id index)).2,
          (f.newSequence .array (longer f id index)).2, rfl, if_neg bound,
          (if_neg (lengths ▸ bound)).trans (congrArg some (Prod.ext handle rfl)),
          ⟨longer g id index, longer f id index, newSequence_adds g .array _, adds', longer_kind ahead arrives index,
            longer_continues arrives fit, longer_slots ahead arrives fit, lt_length_padded_iff.2 fit⟩⟩)
  | null => exact absurd rfl value
  | _ => exact .inl ⟨rfl, rfl, by simp [Addressable]⟩

/-- The collection of a segment is large enough in both documents. -/
theorem grow_alongside (ahead : Ahead es root g f) {path : Path} {ρ : List String} {owner c : Value}
    {s : Segment} (start : g.along root ρ = some owner)
    (arrives : g.along root (ρ ++ s.names) = some c) (value : c ≠ .null)
    (room : ∀ n, s.selector.index? = some n → RoomIn g c n)
    (names : s.name ≠ "" → owner.holdsNames) (free : s.name ≠ "" → es.at? (ρ ++ [s.name]) = none) :
    Alongside es root g f (grow .empty path owner s c) (grow .empty path owner s c)
      fun c' g' => g'.along root ρ = some owner ∧ g'.along root (ρ ++ s.names) = some c' ∧
        c' ≠ .null ∧ ∀ n, s.selector.index? = some n → Addressable g' c' n := by
  cases hindex : s.selector.index? with
  | none =>
    have kept : ∀ x : Graph, GrowRun .empty path x owner s c (.ok c) x := fun x =>
      .kept fun index same => by simp [hindex] at same
    exact .runs (kept g).run_eq (kept f).run_eq ahead ⟨start, arrives, value, by simp⟩
  | some index =>
    simp only [Option.some.injEq, forall_eq']
    rcases grow_both ahead arrives value (room index hindex) with ⟨grown, grown', addressable⟩ |
      ⟨g', f', grown, grown', ahead', grows, listed, addressable⟩ |
      ⟨id, id', g₁, f₁, rfl, grown, grown', ⟨n, m, adds, adds', kind, continues, slots, bound⟩⟩
    · have kept : ∀ x : Graph, x.grow c index = none → GrowRun .empty path x owner s c (.ok c) x :=
        fun x enough => .kept fun n same => Option.some.inj (hindex.symm.trans same) ▸ enough
      exact .runs (kept g grown).run_eq (kept f grown').run_eq ahead ⟨start, arrives, value, addressable⟩
    · refine ⟨.ok c, g', f', (GrowRun.widened hindex grown).run_eq, (GrowRun.widened hindex grown').run_eq, ahead',
        grows, ?_⟩
      rintro c' same
      obtain rfl := Except.ok.inj same
      refine ⟨?_, listed, value, addressable⟩
      by_cases named : s.name = ""
      · rw [Segment.names_of_eq named, List.append_nil] at arrives listed
        rwa [← Option.some.inj (start.symm.trans arrives)] at listed
      · exact grows.kept_names start (names named)
    · have has := ahead.tree.has_of_along arrives
      have other : Value.sequence .array id' ≠ .sequence .array id := by
        intro same
        exact adds.new (same ▸ has)
      by_cases named : s.name = ""
      · obtain ⟨ahead', grows⟩ := ahead.add adds adds' (continues.has ahead.tree)
        exact ⟨_, g₁, f₁, (GrowRun.nested hindex grown other named).run_eq,
          (GrowRun.nested hindex grown' other named).run_eq, ahead', grows, fun _ same => by cases same⟩
      have names := names named
      have has_owner := ahead.tree.has_of_along start
      rw [Segment.names_of_ne named] at arrives continues slots
      obtain ⟨g₂, f₂, set, set', put, ahead', grows, placed⟩ := setChild_alongside ahead start names adds adds' kind
        continues slots (free named) (.inr (.inr ⟨id, id', arrives, rfl⟩))
      refine ⟨.ok (.sequence .array id'), g₂, f₂, (GrowRun.replaced hindex grown other named set).run_eq,
        (GrowRun.replaced hindex grown' other named set').run_eq, ahead', grows, ?_⟩
      rintro c' same
      obtain rfl := Except.ok.inj same
      refine ⟨grows.kept_names start names, by rwa [Segment.names_of_ne named], by simp, ?_⟩
      rintro kind' id'' same
      cases same
      have node : g₂.node (.sequence .array id') = .sequence n := by
        rw [put.kept _ (adds.address_ne has_owner).symm, adds.node]
      rwa [Node.sequence.inj node]

/-! ## The walk -/

/-- A value is ready to be the owner of a segment: it is in its place, and a collection that the segment names is
there and large enough. -/
structure Ready (g : Graph) (root : Value) (ρ : List String) (owner : Value) (s : Segment) :
    Prop where
  arrives : g.along root ρ = some owner
  value : owner ≠ .null
  collection : s.isCollection → ∃ c, g.along root (ρ ++ s.names) = some c ∧ c ≠ .null ∧
    (s.name ≠ "" → owner.holdsNames) ∧ ∀ n, s.selector.index? = some n → Addressable g c n

theorem labels_ne_nil {s : Segment} (written : s.Written) (single : s.isWildcard = false) :
    s.labels ≠ [] := by
  unfold Segment.labels Segment.names
  split
  · next unnamed =>
    obtain ⟨slot, hslot⟩ := slot?_of_single (written unnamed) single
    simp [hslot]
  · simp

/-- The collection of a segment is there, and large enough, in both documents. -/
theorem collect_alongside (ahead : Ahead es root g f) {path : Path} {ρ : List String} {v : Value} {s : Segment}
    {next : Option Segment} (roomy : s.Roomy) (arrives : g.along root ρ = some v) (value : v ≠ .null)
    (free : s.name ≠ "" → es.at? (ρ ++ [s.name]) = none) :
    Alongside es root g f (collect .empty path v s next) (collect .empty path v s next)
      fun c g' => g'.along root ρ = some v ∧ g'.along root (ρ ++ s.names) = some c ∧ c ≠ .null ∧
        (s.name ≠ "" → v.holdsNames) ∧ ∀ n, s.selector.index? = some n → Addressable g' c n := by
  refine .bind (childOrCreate_alongside ahead arrives value free) fun c g₁ f₁ ahead₁ _ found => ?_
  obtain ⟨start, arrives₁, value₁, names⟩ := found
  have room : ∀ n, s.selector.index? = some n → RoomIn g₁ c n := fun n hn _ _ _ => roomy.hasRoom hn _
  refine (grow_alongside ahead₁ start arrives₁ value₁ room names free).mono fun c' g' grown => ?_
  obtain ⟨start₂, arrives₂, value₂, addressable⟩ := grown
  exact ⟨start₂, arrives₂, value₂, names, addressable⟩

/-- A segment is passed in the same way in both documents. -/
theorem pass_alongside (ahead : Ahead es root g f) {path : Path} {ρ : List String} {v : Value} {s : Segment}
    {next : Option Segment} (roomy : s.Roomy) (single : s.isWildcard = false)
    (arrives : g.along root ρ = some v) (value : v ≠ .null)
    (free : s.name ≠ "" → es.at? (ρ ++ [s.name]) = none)
    (free_slot : s.isCollection → es.at? (ρ ++ s.labels) = none) :
    Alongside es root g f (pass .empty path v s next) (pass .empty path v s next)
      fun w g' => g'.along root (ρ ++ s.labels) = some w ∧ w ≠ .null := by
  by_cases bracketed : s.isCollection
  case neg =>
    have plain : s.isCollection = false := by simpa using bracketed
    have labels : s.labels = s.names := by simp [Segment.labels, slot?_eq_none plain]
    rw [pass_of_plain plain, labels]
    exact (childOrCreate_alongside ahead arrives value free).mono fun c g' found => ⟨found.2.1, found.2.2.1⟩
  obtain ⟨slot, hslot⟩ := slot?_of_single bracketed single
  have labels : ρ ++ s.labels = ρ ++ s.names ++ [Graph.label slot] := by simp [Segment.labels, hslot]
  rw [pass_of_collection bracketed, labels]
  refine .bind (collect_alongside ahead roomy arrives value free) fun c g₁ f₁ ahead₁ _ found => ?_
  exact elementOrCreate_alongside ahead₁ path next hslot found.2.1 (labels ▸ free_slot bracketed)

/-- The walk along a path gives the same owner or the same failure in both documents. -/
theorem ownerFrom_alongside (path : Path) {ρ : List String} {v : Value} {segments : List Segment}
    (written : ∀ s ∈ segments, s.Written) (single : ∀ s ∈ segments, s.isWildcard = false)
    (roomy : ∀ s ∈ segments, s.Roomy) (nonempty : segments ≠ []) (ahead : Ahead es root g f)
    (arrives : g.along root ρ = some v)
    (value : v ≠ .null)
    (clear : ∀ q τ, τ ≠ [] → q ++ τ = ρ ++ segments.flatMap Segment.labels → es.at? q = none) :
    Alongside es root g f (ownerFrom .empty path v segments) (ownerFrom .empty path v segments)
      fun owner g' => Ready g' root (ρ ++ segments.dropLast.flatMap Segment.labels) owner
        (segments.getLast nonempty) := by
  induction segments generalizing v g f ρ with
  | nil => exact absurd rfl nonempty
  | cons s rest ih =>
    have single_s := single s List.mem_cons_self
    have roomy_s := roomy s List.mem_cons_self
    by_cases last : rest = []
    · subst last
      rw [ownerFrom_last, List.dropLast_singleton, List.getLast_singleton, List.flatMap_nil, List.append_nil]
      by_cases bracketed : s.isCollection
      case neg =>
        rw [if_neg bracketed]
        exact .pure ahead ⟨arrives, value, fun collection => absurd collection bracketed⟩
      obtain ⟨slot, hslot⟩ := slot?_of_single bracketed single_s
      have free : s.name ≠ "" → es.at? (ρ ++ [s.name]) = none := fun named =>
        clear _ [Graph.label slot] (by simp) (by simp [Segment.labels, Segment.names_of_ne named, hslot])
      rw [if_pos bracketed]
      refine .bind (collect_alongside ahead roomy_s arrives value free) fun c g₁ f₁ ahead₁ _ found => ?_
      obtain ⟨start, arrives₁, value₁, names, addressable⟩ := found
      exact .pure ahead₁ ⟨start, value, fun _ => ⟨c, arrives₁, value₁, names, addressable⟩⟩
    have written_rest := fun t ht => written t (List.mem_cons_of_mem s ht)
    have single_rest := fun t ht => single t (List.mem_cons_of_mem s ht)
    have roomy_rest := fun t ht => roomy t (List.mem_cons_of_mem s ht)
    have behind : rest.flatMap Segment.labels ≠ [] := by
      obtain ⟨t, others, rfl⟩ := List.exists_cons_of_ne_nil last
      have := labels_ne_nil (written_rest t List.mem_cons_self) (single_rest t List.mem_cons_self)
      simp [this]
    have free : s.name ≠ "" → es.at? (ρ ++ [s.name]) = none := fun named =>
      clear _ ((s.selector.slot?.map Graph.label).toList ++ rest.flatMap Segment.labels) (by simp [behind])
        (by simp [Segment.labels, Segment.names_of_ne named])
    have free_slot : es.at? (ρ ++ s.labels) = none := clear _ _ behind (by simp)
    rw [ownerFrom_cons last]
    refine .bind (pass_alongside ahead roomy_s single_s arrives value free fun _ => free_slot)
      fun w g₁ f₁ ahead₁ _ found => ?_
    have walk := ih written_rest single_rest roomy_rest last ahead₁ found.1 found.2
      (by simpa [List.append_assoc] using clear)
    simpa [List.dropLast_cons_of_ne_nil last, List.getLast_cons last, List.append_assoc] using walk

/-! ## The root -/

theorem growRoot_alongside {w u : Writer} (same : u.root = w.root)
    (ahead : Ahead es w.root w.graph u.graph) (value : w.root ≠ .null) {index : Nat}
    (room : RoomIn w.graph w.root index) :
    ∃ root g' f', growRoot index w = (⟨⟩, { w with root, graph := g' }) ∧
      growRoot index u = (⟨⟩, { u with root, graph := f' }) ∧ Ahead es root g' f' ∧
      w.graph.Grows w.root g' root ∧ root ≠ .null ∧ Addressable g' root index := by
  rcases grow_both ahead (along_nil _ _) value room with ⟨grown, grown', addressable⟩ |
    ⟨g', f', grown, grown', ahead', grows, -, addressable⟩ |
    ⟨id, id', g', f', array, grown, grown', ⟨n, m, adds, adds', kind, continues, slots, bound⟩⟩
  · rw [← same] at grown'
    exact ⟨w.root, w.graph, u.graph, growRoot_kept grown, same ▸ growRoot_kept grown', ahead, .refl _ _, value,
      addressable⟩
  · rw [← same] at grown'
    exact ⟨w.root, g', f', growRoot_grown grown, same ▸ growRoot_grown grown', ahead', grows, value, addressable⟩
  · obtain ⟨ahead', grows⟩ :=
      ahead.graft_root adds adds' kind continues slots (.inr ⟨id, id', array, rfl⟩)
    rw [← same] at grown'
    refine ⟨.sequence .array id', g', f', growRoot_grown grown, growRoot_grown grown', ahead', grows, by simp, ?_⟩
    rintro kind' id'' same
    cases same
    rwa [Node.sequence.inj adds.node]

theorem withRoot_alongside {w u : Writer} (same : u.root = w.root) (ahead : Ahead es w.root w.graph u.graph)
    (bracket : Option Bracket) :
    ∃ root g' f', w.withRoot bracket = { w with root, graph := g' } ∧
      u.withRoot bracket = { u with root, graph := f' } ∧ Ahead es root g' f' ∧
      w.graph.Grows w.root g' root ∧ root ≠ .null := by
  by_cases missing : w.root = .null
  case neg =>
    exact ⟨w.root, w.graph, u.graph, withRoot_of_value missing bracket,
      same ▸ withRoot_of_value (same ▸ missing) bracket, ahead, .refl _ _, missing⟩
  rcases emptyCollection_alike bracket w.graph u.graph ahead.has with
    ⟨e, run, -⟩ | ⟨c, n, g₁, f₁, run, run', adds, adds', none⟩
  · cases run
  have empty : w.graph.along w.root [] = some .null := congrArg some missing
  obtain ⟨ahead', grows⟩ := ahead.graft_root adds adds' rfl (continues_of_missing none (.inr empty))
    (fun other => by
      rw [none, Option.or_none]
      exact (at?_below_missing ahead (.inr empty) other).symm) (.inl missing)
  refine ⟨c, g₁, f₁, ?_, ?_, ahead', grows, ?_⟩
  · rw [withRoot_of_null missing]
    cases run
    rfl
  · rw [withRoot_of_null (same.trans missing)]
    cases run'
    rfl
  · rintro rfl
    exact adds.new trivial

theorem ensureRoot_alongside {w u : Writer} (same : u.root = w.root)
    (ahead : Ahead es w.root w.graph u.graph) {s : Segment} (roomy : s.Roomy) :
    ∃ root g' f', ensureRoot s w = (⟨⟩, { w with root, graph := g' }) ∧
      ensureRoot s u = (⟨⟩, { u with root, graph := f' }) ∧ Ahead es root g' f' ∧
      w.graph.Grows w.root g' root ∧ root ≠ .null ∧
      ∀ n, s.selector.index? = some n → Addressable g' root n := by
  obtain ⟨root, g₁, f₁, hw, hu, ahead₁, grows₁, value⟩ := withRoot_alongside same ahead s.selector.bracket?
  rw [ensureRoot_eq, ensureRoot_eq, hw, hu]
  cases hindex : s.selector.index? with
  | none => exact ⟨root, g₁, f₁, rfl, rfl, ahead₁, grows₁, value, by simp⟩
  | some index =>
    obtain ⟨root₂, g₂, f₂, run, run', ahead₂, grows₂, value₂, addressable⟩ :=
      growRoot_alongside (w := { w with root, graph := g₁ }) (u := { u with root, graph := f₁ }) rfl
        ahead₁ value fun _ _ _ => roomy.hasRoom hindex _
    exact ⟨root₂, g₂, f₂, run, run', ahead₂, grows₁.trans grows₂, value₂, by simpa using addressable⟩

/-- The owner that is prepared for a path is ready for its last segment; a path that is its root alone needs
none. -/
def Prepared (g : Graph) (root : Value) (path : Path) : Option Value → Prop
  | none => path.tail = [] ∧ ∀ n, path.head.selector.index? = some n → Addressable g root n
  | some owner => path.tail ≠ [] ∧
    Ready g root path.ownerRoute owner path.last

/-- A path with brackets at its root leads to an element of the root first. -/
theorem route_of_head_slot {path : Path} (wellFormed : path.WellFormed) {slot : Slot}
    (hslot : path.head.selector.slot? = some slot) :
    path.route = [Graph.label slot] ++ path.tail.flatMap Segment.labels := by
  have bracketed : path.head.isCollection := by
    by_contra plain
    simp [slot?_eq_none (by simpa using plain)] at hslot
  rw [Path.route, Path.followed_of_bracketed bracketed, List.flatMap_cons, Segment.labels, hslot,
    Segment.names_of_eq wellFormed.head_name]
  rfl

/-- The way from the root gives the same owner or the same failure in both documents. -/
theorem reach_alongside {path : Path} (wellFormed : path.WellFormed) (single : path.hasWildcard = false)
    (roomy : path.Roomy) (below : path.tail ≠ []) (ahead : Ahead es root g f) (value : root ≠ .null)
    (clear : ∀ q τ, τ ≠ [] → q ++ τ = path.route → es.at? q = none) :
    Alongside es root g f (reach .empty path root) (reach .empty path root) fun owner g' =>
      Prepared g' root path (some owner) := by
  have single_tail := fun s hs => Path.single_of_mem single (s := s) (List.mem_cons_of_mem _ hs)
  have roomy_tail := fun s hs => roomy s (List.mem_cons_of_mem _ hs)
  have last := Path.last_of_below below
  unfold reach
  by_cases bracketed : path.head.isCollection
  · obtain ⟨slot, hslot⟩ := slot?_of_single bracketed (Path.single_of_mem single List.mem_cons_self)
    have route := route_of_head_slot wellFormed hslot
    have labels : path.head.labels = [Graph.label slot] := by
      simp [Segment.labels, Segment.names_of_eq wellFormed.head_name, hslot]
    have behind : path.tail.flatMap Segment.labels ≠ [] := by
      obtain ⟨t, others, tail⟩ := List.exists_cons_of_ne_nil below
      have written := wellFormed.written t (by simp [tail])
      have := labels_ne_nil written (single_tail t (by simp [tail]))
      simp [tail, this]
    rw [if_pos bracketed]
    refine .bind (elementOrCreate_alongside ahead path path.tail.head? hslot (along_nil _ _)
      (clear _ _ behind (by simp [route]))) fun start g₁ f₁ ahead₁ _ found => ?_
    refine (ownerFrom_alongside path wellFormed.written single_tail roomy_tail below ahead₁ found.1 found.2
      (by simpa [route] using clear)).mono fun owner g' ready => ⟨below, ?_⟩
    rw [last]
    simpa [Path.ownerRoute, Path.followed_of_bracketed bracketed, List.dropLast_cons_of_ne_nil below, labels]
      using ready
  · have route : path.route = path.tail.flatMap Segment.labels := by
      simp [Path.route, Path.followed_of_plain bracketed]
    rw [if_neg bracketed, pure_bind]
    refine (ownerFrom_alongside path wellFormed.written single_tail roomy_tail below ahead (along_nil _ _) value
      (by simpa [route] using clear)).mono fun owner g' ready => ⟨below, ?_⟩
    rw [last]
    simpa [Path.ownerRoute, Path.followed_of_plain bracketed] using ready

/-- All of the preparation gives the same owner or the same failure in both documents. -/
theorem prepare_alongside {path : Path} (wellFormed : path.WellFormed)
    (single : path.hasWildcard = false) (roomy : path.Roomy) {w u : Writer} (same : u.root = w.root)
    (ahead : Ahead es w.root w.graph u.graph)
    (clear : ∀ q τ, τ ≠ [] → q ++ τ = path.route → es.at? q = none) :
    ∃ result root g' f', (prepare .empty path).run w = (result, { w with root, graph := g' }) ∧
      (prepare .empty path).run u = (result, { u with root, graph := f' }) ∧ Ahead es root g' f' ∧
      w.graph.Grows w.root g' root ∧ root ≠ .null ∧
      ∀ owner, result = .ok owner → Prepared g' root path owner := by
  obtain ⟨root, g₁, f₁, rooted, rooted', ahead₁, grows₁, value, addressable⟩ :=
    ensureRoot_alongside same ahead (roomy path.head List.mem_cons_self)
  by_cases atRoot : path.tail = []
  · refine ⟨.ok none, root, g₁, f₁, prepare_of_root single atRoot rooted, prepare_of_root single atRoot rooted',
      ahead₁, grows₁, value, ?_⟩
    intro owner same
    obtain rfl := Except.ok.inj same
    exact ⟨atRoot, addressable⟩
  · obtain ⟨result, g₂, f₂, reached, reached', ahead₂, grows₂, prepared⟩ :=
      reach_alongside wellFormed single roomy atRoot ahead₁ value clear
    refine ⟨result.map some, root, g₂, f₂, prepare_of_reach single atRoot rooted reached,
      prepare_of_reach single atRoot rooted' reached', ahead₂, grows₁.trans grows₂, value, ?_⟩
    intro owner same
    cases result with
    | error e => cases same
    | ok start =>
      obtain rfl := Except.ok.inj same
      exact prepared start rfl

end Writer

end FieldBinding
