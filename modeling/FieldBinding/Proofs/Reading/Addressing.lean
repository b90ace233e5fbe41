import FieldBinding.Proofs.Reading.Composition
import FieldBinding.Proofs.Reading.Elements
import FieldBinding.Proofs.Graph.Slots

/-!
# The paths of a group

The path of a finding is the path of the read, with a place in the brackets of every wildcard that the walk went
through.  Following it again leads to the same value and to no other, because a place selects just the element
that the wildcard enumerated it with.  A walk that stopped in front of a wildcard stops there again.  Two findings
of one group differ in the place at the wildcard where their ways part.

Braces select entries of a map by their keys, and elements of a sequence not at all.  A wildcard in braces does
enumerate a sequence, so the paths of a group are addresses only where the braces meet maps.

Main results:

* `Stage.addressed` — every finding is located by its path, and the paths are different.
* `Registry.read_located` — the statement for reads.
-/

namespace FieldBinding

/-! ## Places -/

namespace Path

/-- A place that is put into a segment changes nothing else. -/
theorem segments_withSlotAt {p q : Path} {position : Nat} {slot : Slot} {segment : Segment}
    (here : p.segments[position]? = some segment) (put : p.withSlotAt position slot = .ok q) :
    ∃ segment', segment.withSlot? slot = some segment' ∧
      q.segments.take (position + 1) = p.segments.take position ++ [segment'] ∧
      q.head.isCollection = p.head.isCollection := by
  have modified : ∀ f : Segment → Segment, (f segment).isCollection = segment.isCollection →
      (p.modifyAt f position).segments.take (position + 1) =
        p.segments.take position ++ [f segment] ∧
      (p.modifyAt f position).head.isCollection = p.head.isCollection := by
    intro f same
    constructor
    · rw [segments_modifyAt, List.take_add_one, List.getElem?_modify_eq, here, List.take_modify,
        List.modify_eq_self (by rw [List.length_take]; exact Nat.min_le_left _ _)]
      rfl
    · cases position with
      | zero =>
        cases here
        exact same
      | succ n => rfl
  cases slot with
  | index n =>
    simp only [withSlotAt, withIndexAt, here] at put
    split at put
    · cases put
    split at put
    · cases put
    cases put
    refine ⟨_, rfl, modified (·.withIndex n) ?_⟩
    obtain ⟨name, selector, isRoot⟩ := segment
    cases selector <;> rfl
  | key key =>
    simp only [withSlotAt, withKeyAt, here] at put
    split at put
    · next name other isRoot found =>
      cases found
      cases put
      exact ⟨_, rfl, modified (·.withKey key) rfl⟩
    · cases put

end Path

namespace Graph

/-- The place of an element selects that element. -/
theorem elementAt_of_mem_elements {g : Graph} {c v : Value} {slot : Slot}
    (element : (slot, v) ∈ g.elements c) : g.elementAt c slot = v := by
  cases c with
  | sequence kind id =>
    obtain ⟨⟨w, n⟩, member, same⟩ := List.mem_map.1 element
    cases same
    have found := List.mem_zipIdx_iff_getElem?.1 member
    simp only at found
    simp [elementAt, found]
  | map id =>
    obtain ⟨⟨key, w⟩, member, same⟩ := List.mem_map.1 element
    cases same
    simp [elementAt, Entries.get?_of_mem member]
  | _ => cases element

/-- Different elements have different places. -/
theorem nodup_places (g : Graph) (c : Value) : ((g.elements c).map (·.1)).Nodup := by
  cases c with
  | sequence kind id =>
    refine List.pairwise_iff_getElem.2 fun i j _ _ lt => ?_
    simp only [elements, List.map_map, List.getElem_map, List.getElem_zipIdx, Function.comp_apply]
    simp only [ne_eq, Slot.index.injEq]
    omega
  | map id =>
    have keys : (g.elements (.map id)).map (·.1) = (g.map id).entries.keys.map .key := by
      simp [elements, Entries.keys]
    rw [keys]
    refine List.pairwise_map.2 (List.pairwise_map.2 ((g.map id).entries.ascending.imp ?_))
    intro a b lt same
    rw [Slot.key.inj same] at lt
    exact String.lt_irrefl _ lt
  | _ => exact List.nodup_nil

end Graph

/-! ## Growth along a walk -/

/-- What each run of many preserves, all of them preserve. -/
theorem joinM_invariant {σ α β : Type} {P : σ → Prop} {f : α → StateM σ (List β)} {l : List α}
    (keeps : ∀ a ∈ l, ∀ s, P s → P (f a s).2) {s : σ} (start : P s) : P (joinM f l s).2 := by
  induction l generalizing s with
  | nil => exact start
  | cons a rest ih =>
    exact ih (fun b member => keeps b (List.mem_cons_of_mem _ member))
      (keeps a List.mem_cons_self s start)

/-- The values that a walk goes on to; none if it stops.  The brackets of the segment do not take every
place. -/
def Move.targets (segment : Segment) : Move → Option (List Value)
  | stop _ => none
  | on v => some [v]
  | each elements => some ((elements.filter fun e => (segment.withSlot? e.1).isSome).map (·.2))

namespace Registry

/-- The values that a segment leads to are those that the walk goes on to. -/
theorem entered_eq_move (r : Registry) {current : Value} {segment : Segment} {last : Bool}
    {g g' : Graph} {m : Move} (goes : r.move current segment last g = (m, g')) :
    r.entered current segment g = (m.targets segment, g') := by
  by_cases value : current.isNull
  · simp only [move, value] at goes
    cases goes
    simp only [entered, value]
    rfl
  rw [move_run r value] at goes
  rw [entered_run r value]
  revert goes
  rcases (r.child current segment.name).run g with ⟨e | child, g₁⟩
  · rintro ⟨⟩
    rfl
  rintro ⟨⟩
  simp only [behind, selected]
  by_cases brackets : segment.isCollection
  case neg => simp [brackets, Move.targets]
  by_cases places : child.isCollection
  case neg => cases absent : child.isNull <;> simp [brackets, places, Move.targets]
  have notNull : child.isNull = false := Value.isNull_eq_false_iff.2 (Value.ne_null_of_isCollection places)
  cases segment.selector.slot? <;> simp [brackets, places, notNull, Move.targets]

end Registry

namespace Stage

variable {r : Registry} {template : Field} {s : Stage}

/-- A walk changes no node, and what it finds is valid at its end. -/
theorem walk_grows (r : Registry) (template : Field) (closed : s.graph.Closed)
    (has : s.graph.Has s.value) :
    (s.walk r template).2.Closed ∧ s.graph.Extends (s.walk r template).2 ∧
      ∀ f ∈ (s.walk r template).1, (s.walk r template).2.Has f.field.value := by
  have same := Registry.follow_values r template s.path s.value s.position s.index s.segments
    s.graph rfl
  obtain ⟨_, step, -, valid⟩ := r.reached_keepsStep s.segments .same s.graph s.graph s.value closed
    (Graph.Extends.refl s.graph).embeds has
  dsimp only at step valid
  rw [← same] at step valid
  exact ⟨step.closed, step.grown, fun f member => valid _ (List.mem_map_of_mem member)⟩

section Wildcard

variable {segment : Segment} {rest : List Segment} {collection : Value} {g : Graph}

theorem Meets.grows (meets : s.Meets r segment rest collection g) (closed : s.graph.Closed)
    (has : s.graph.Has s.value) : g.Closed ∧ s.graph.Extends g ∧ g.Has collection := by
  obtain ⟨_, step, -, valid⟩ := child_inStep (r := r) closed (Graph.Extends.refl s.graph).embeds has
    segment.name
  rw [meets.child] at step valid
  exact ⟨step.closed, step.grown, valid _ rfl⟩

/-- The walks over some of the elements change no node. -/
theorem Meets.elements_grow (template : Field) (meets : s.Meets r segment rest collection g)
    (closed : g.Closed) (has : g.Has collection) {h : Graph} (closed_h : h.Closed)
    (grown : g.Extends h) {l : List ((Slot × Value) × Nat)}
    (elements : ∀ e ∈ l, e.1 ∈ g.elements collection) :
    let end_ := (joinM (r.followAt template s.path s.position rest) l h).2
    end_.Closed ∧ h.Extends end_ := by
  refine joinM_invariant (P := fun h' => h'.Closed ∧ h.Extends h') (fun e member h' before => ?_)
    ⟨closed_h, .refl h⟩
  obtain ⟨⟨slot, v⟩, k⟩ := e
  obtain ⟨closed', grown'⟩ := before
  cases put : s.path.withSlotAt s.position slot with
  | error e =>
    rw [Registry.followAt, put]
    exact ⟨closed', grown'⟩
  | ok q =>
    have valid : h'.Has v :=
      (grown.trans grown').has (elements_has closed has (elements _ member))
    obtain ⟨closed'', grown'', -⟩ := walk_grows r template (s := s.into q v k h') closed' valid
    rw [followAt_eq_walk r template meets.next put]
    exact ⟨closed'', grown'.trans grown''⟩

end Wildcard

/-! ## Located findings -/

/-- The path of a field is that of a stage with places put in, and its segments behind the stage lead to the value
of the field and nowhere else. -/
structure Locates (r : Registry) (s : Stage) (f : Field) (behind : List Segment) (g : Graph) :
    Prop where
  path : f.path.segments = s.path.segments.take s.position ++ behind
  head : f.path.head.isCollection = s.path.head.isCollection
  has : g.Has f.value
  leads : ∀ {β : Type} (look : Graph → Value → List β), Observation look →
    watch look (r.reached s.value behind s.graph) = look g f.value

/-- The braces of a wildcard meet no sequence. -/
def KeyedByBraces (r : Registry) (s : Stage) : Prop :=
  ∀ segment rest collection g, s.Meets r segment rest collection g → segment.isWildcard = true →
    segment.selector.bracket? = some .entry → ∃ id, collection = .map id

theorem Locates.grown {f : Field} {behind : List Segment} {g g' : Graph}
    (located : s.Locates r f behind g) (closed : g.Closed) (grown : g.Extends g') :
    s.Locates r f behind g' where
  path := located.path
  head := located.head
  has := grown.has located.has
  leads look steady := by
    rw [located.leads look steady, steady.grown closed grown located.has]

/-- A place in the brackets selects what stands there. -/
theorem Meets.entered {segment segment' : Segment} {rest : List Segment} {collection : Value}
    {g : Graph} (meets : s.Meets r segment rest collection g) {slot : Slot}
    (name : segment'.name = segment.name) (placed : segment'.selector.slot? = some slot) :
    r.entered s.value segment' s.graph = (some [g.elementAt collection slot], g) := by
  have brackets : segment'.isCollection = true := by
    obtain ⟨_, selector, _⟩ := segment'
    cases selector <;> first | rfl | cases placed
  rw [Registry.entered_run r meets.value, name, meets.child]
  simp [Registry.selected, brackets, meets.collection, placed]

/-- A place that is put into a wildcard is the place that the brackets then select. -/
theorem Meets.placed {segment segment' : Segment} {rest : List Segment} {collection v : Value}
    {g : Graph} (meets : s.Meets r segment rest collection g) (wild : segment.isWildcard = true)
    (keyed : s.KeyedByBraces r) {slot : Slot} (element : (slot, v) ∈ g.elements collection)
    (put : segment.withSlot? slot = some segment') :
    segment'.name = segment.name ∧ segment'.selector.slot? = some slot := by
  have braces := keyed segment rest collection g meets wild
  have places := meets.collection
  obtain ⟨name, selector, isRoot⟩ := segment
  cases collection with
  | sequence kind id =>
    obtain ⟨_, _, same⟩ := List.mem_map.1 element
    cases same
    cases selector with
    | plain => cases wild
    | element kind index =>
      cases put
      exact ⟨rfl, rfl⟩
    | entry key =>
      obtain ⟨_, other⟩ := braces rfl
      cases other
  | map id =>
    obtain ⟨_, _, same⟩ := List.mem_map.1 element
    cases same
    cases selector with
    | entry key =>
      cases put
      exact ⟨rfl, rfl⟩
    | _ => simp [Segment.withSlot?, Selector.bracket?] at put
  | _ => cases places

/-- What is located from the stage at an element is located from the wildcard, through the place of the
element. -/
theorem Meets.locates {segment : Segment} {rest : List Segment} {collection v : Value} {g : Graph}
    (meets : s.Meets r segment rest collection g) (wild : segment.isWildcard = true)
    (keyed : s.KeyedByBraces r) (closed : g.Closed) (has : g.Has collection) {slot : Slot}
    (element : (slot, v) ∈ g.elements collection) {q : Path}
    (put : s.path.withSlotAt s.position slot = .ok q) {k : Nat} {h g' : Graph} (grown : g.Extends h)
    {f : Field} {behind : List Segment} (located : (s.into q v k h).Locates r f behind g') :
    ∃ segment', segment'.selector.slot? = some slot ∧ s.Locates r f (segment' :: behind) g' := by
  obtain ⟨segment', filled, front, head⟩ :=
    Path.segments_withSlotAt (getElem?_position meets.next) put
  obtain ⟨name, placed⟩ := meets.placed wild keyed element filled
  refine ⟨segment', placed, ?_, located.head.trans head, located.has, fun look steady => ?_⟩
  · rw [located.path]
    show q.segments.take (s.position + 1) ++ behind = _
    rw [front, List.append_assoc]
    rfl
  · have again := steady.watch_observation (r.reached_keepsStep behind)
    rw [Registry.reached_cons, meets.entered name placed, Graph.elementAt_of_mem_elements element]
    simp only [joinM_singleton]
    rw [← again.grown closed grown (elements_has closed has element)]
    exact located.leads look steady

/-- Every finding of a stage is located by its path, and no two findings have the same path. -/
structure Addressed (r : Registry) (template : Field) (s : Stage) : Prop where
  located : ∀ f ∈ (s.walk r template).1, ∃ behind, s.Locates r f.field behind (s.walk r template).2
  distinct : (s.walk r template).1.Pairwise fun a b => a.field.path ≠ b.field.path

section Cases

variable {segment : Segment} {rest : List Segment} {g : Graph}

theorem path_eq (next : s.segments = segment :: rest) :
    s.path.segments = s.path.segments.take s.position ++ segment :: rest := by
  rw [← next, segments, List.take_append_drop]

theorem take_succ (next : s.segments = segment :: rest) :
    s.path.segments.take (s.position + 1) = s.path.segments.take s.position ++ [segment] := by
  rw [List.take_add_one, getElem?_position next]
  rfl

theorem addressed_nil (has : s.graph.Has s.value) (last : s.segments = []) :
    s.Addressed r template := by
  have one := walk_nil r template last
  refine ⟨fun f member => ⟨[], ?_⟩, by rw [one]; exact List.pairwise_singleton _ _⟩
  rw [one] at member ⊢
  rw [List.mem_singleton.1 member]
  refine ⟨?_, rfl, has, fun look _ => ?_⟩
  · rw [← last, segments, List.take_append_drop]
    rfl
  · simp [watch, Registry.reached, Registry.found]

theorem addressed_stop (next : s.segments = segment :: rest) {fault : Option ReadFault}
    (goes : r.move s.value segment rest.isEmpty s.graph = (.stop fault, g)) :
    s.Addressed r template := by
  have one := walk_cons r template next
  rw [goes] at one
  refine ⟨fun f member => ⟨segment :: rest, ?_⟩, by rw [one]; exact List.pairwise_singleton _ _⟩
  rw [one] at member ⊢
  rw [List.mem_singleton.1 member]
  refine ⟨path_eq next, rfl, trivial, fun look _ => ?_⟩
  rw [Registry.reached_cons, r.entered_eq_move goes]
  simp [watch, Move.targets, Registry.halted, Field.template]

theorem addressed_on (next : s.segments = segment :: rest) {v : Value}
    (goes : r.move s.value segment rest.isEmpty s.graph = (.on v, g))
    (addressed : (s.onto v g).Addressed r template) : s.Addressed r template := by
  have same := walk_cons r template next
  rw [goes] at same
  refine ⟨fun f member => ?_, by rw [same]; exact addressed.distinct⟩
  rw [same] at member ⊢
  obtain ⟨behind, here⟩ := addressed.located f member
  refine ⟨segment :: behind, ?_, here.head, here.has, fun look steady => ?_⟩
  · rw [here.path]
    simp [onto, take_succ next]
  · rw [Registry.reached_cons, r.entered_eq_move goes]
    simp only [Move.targets, joinM_singleton]
    exact here.leads look steady

/-- The findings of an element are located from the wildcard, through the place of the element. -/
theorem Meets.part_located {collection : Value} (meets : s.Meets r segment rest collection g)
    (wild : segment.isWildcard = true) (keyed : s.KeyedByBraces r) (closed : g.Closed)
    (has : g.Has collection) {k : Nat} {slot : Slot} {v : Value}
    (element : (g.elements collection)[k]? = some (slot, v))
    (each : ∀ q, s.path.withSlotAt s.position slot = .ok q →
      (s.into q v k (joinM (r.followAt template s.path s.position rest)
        ((g.elements collection).zipIdx.take k) g).2).Addressed r template) :
    let run := r.followAt template s.path s.position rest
    let part := (run ((slot, v), k) (joinM run ((g.elements collection).zipIdx.take k) g).2).1
    (∀ f ∈ part, ∃ segment' behind, segment'.selector.slot? = some slot ∧
        s.Locates r f.field (segment' :: behind) (s.walk r template).2) ∧
      part.Pairwise fun a b => a.field.path ≠ b.field.path := by
  intro run part
  let places := (g.elements collection).zipIdx
  let before := (joinM run (places.take k) g).2
  have members : ∀ e ∈ places, e.1 ∈ g.elements collection := fun e member =>
    List.fst_mem_of_mem_zipIdx member
  have member : (slot, v) ∈ g.elements collection := List.mem_of_getElem? element
  obtain ⟨closed_before, grown⟩ := meets.elements_grow template closed has closed (.refl g)
    fun e he => members e (List.mem_of_mem_take he)
  cases put : s.path.withSlotAt s.position slot with
  | error e =>
    have none : part = [] := by
      simp only [part, run, Registry.followAt, put]
      rfl
    rw [none]
    exact ⟨by simp, List.Pairwise.nil⟩
  | ok q =>
    have same := followAt_eq_walk r template meets.next put v k before
    have addressed := each q put
    obtain ⟨closed_here, grown_here, -⟩ := walk_grows r template (s := s.into q v k before)
      closed_before (grown.has (elements_has closed has member))
    -- the graph at the end of the whole walk is reached from the end of this part
    have later : ((s.into q v k before).walk r template).2.Extends (s.walk r template).2 := by
      have cut : places = places.take k ++ ((slot, v), k) :: places.drop (k + 1) := by
        have at_k : k < places.length := by
          obtain ⟨lt, _⟩ := List.getElem?_eq_some_iff.1 element
          simpa [places] using lt
        have here : places[k] = ((slot, v), k) := by
          obtain ⟨_, same⟩ := List.getElem?_eq_some_iff.1 element
          simp [places, same]
        rw [← here, ← List.drop_eq_getElem_cons at_k, List.take_append_drop]
      have whole := walk_wildcard template meets wild
      rw [show (g.elements collection).zipIdx = _ from cut, joinM_append, joinM_cons] at whole
      rw [whole]
      have rest_grows := meets.elements_grow template closed has closed_here
        (grown.trans grown_here) (l := places.drop (k + 1))
        fun e he => members e (List.mem_of_mem_drop he)
      rw [← same] at rest_grows ⊢
      exact rest_grows.2
    have part_eq : part = ((s.into q v k before).walk r template).1 := congrArg Prod.fst same
    rw [part_eq]
    refine ⟨fun f member_f => ?_, addressed.distinct⟩
    obtain ⟨behind, here⟩ := addressed.located f member_f
    obtain ⟨segment', placed, there⟩ :=
      meets.locates wild keyed closed has member put grown (here.grown closed_here later)
    exact ⟨segment', behind, placed, there⟩

/-- So are those of every element. -/
theorem Meets.parts_located {collection : Value} (meets : s.Meets r segment rest collection g)
    (wild : segment.isWildcard = true) (keyed : s.KeyedByBraces r) (closed : g.Closed) (has : g.Has collection)
    (each : ∀ k slot v q, (g.elements collection)[k]? = some (slot, v) →
      s.path.withSlotAt s.position slot = .ok q →
      (s.into q v k (joinM (r.followAt template s.path s.position rest)
        ((g.elements collection).zipIdx.take k) g).2).Addressed r template) {k : Nat} {part : List Finding}
    (found : ((g.elements collection).zipIdx.mapM (r.followAt template s.path s.position rest) g).1[k]? = some part) :
    ∃ e, (g.elements collection)[k]? = some e ∧
      (∀ f ∈ part, ∃ segment' behind, segment'.selector.slot? = some e.1 ∧
        s.Locates r f.field (segment' :: behind) (s.walk r template).2) ∧
      part.Pairwise fun a b => a.field.path ≠ b.field.path := by
  rw [getElem?_mapM, Option.map_eq_some_iff] at found
  obtain ⟨⟨⟨slot, v⟩, i⟩, element, rfl⟩ := found
  rw [List.getElem?_zipIdx, Option.map_eq_some_iff] at element
  obtain ⟨_, element, same⟩ := element
  rw [Nat.zero_add] at same
  cases same
  exact ⟨(slot, v), element, meets.part_located wild keyed closed has element fun q put => each k slot v q element put⟩

/-- A located field has the place of its element in the brackets of the wildcard. -/
theorem Locates.place {f : Field} {behind : List Segment} {segment' : Segment}
    (next : s.segments = segment :: rest) (located : s.Locates r f (segment' :: behind) g) :
    f.path.segments[s.position]? = some segment' := by
  have lt : s.position < s.path.segments.length := by
    have := getElem?_position next
    exact (List.getElem?_eq_some_iff.1 this).1
  have length : (s.path.segments.take s.position).length = s.position :=
    List.length_take_of_le (Nat.le_of_lt lt)
  rw [located.path, List.getElem?_append_right (Nat.le_of_eq length), length, Nat.sub_self]
  rfl

theorem addressed_each (next : s.segments = segment :: rest) {elements : List (Slot × Value)}
    (goes : r.move s.value segment rest.isEmpty s.graph = (.each elements, g))
    (closed : s.graph.Closed) (has : s.graph.Has s.value) (keyed : s.KeyedByBraces r)
    (each : ∀ k slot v q, elements[k]? = some (slot, v) →
      s.path.withSlotAt s.position slot = .ok q →
      (s.into q v k (joinM (r.followAt template s.path s.position rest)
        (elements.zipIdx.take k) g).2).Addressed r template) : s.Addressed r template := by
  obtain ⟨collection, meets, wild, rfl⟩ := (move_eq_each_iff next).1 goes
  obtain ⟨closed_g, -, has_g⟩ := meets.grows closed has
  let parts := ((g.elements collection).zipIdx.mapM (r.followAt template s.path s.position rest) g).1
  have whole : (s.walk r template).1 = parts.flatten := by
    rw [walk_wildcard template meets wild, joinM_fst]
  have located {k : Nat} {part : List Finding} (found : parts[k]? = some part) :=
    meets.parts_located wild keyed closed_g has_g each found
  constructor
  · intro f member
    rw [whole] at member
    obtain ⟨part, member_part, member⟩ := List.mem_flatten.1 member
    obtain ⟨k, found⟩ := List.mem_iff_getElem?.1 member_part
    obtain ⟨_, -, here, -⟩ := located found
    obtain ⟨segment', behind, -, here⟩ := here f member
    exact ⟨segment' :: behind, here⟩
  · rw [whole, List.pairwise_flatten]
    constructor
    · intro part member
      obtain ⟨k, found⟩ := List.mem_iff_getElem?.1 member
      obtain ⟨_, -, -, distinct⟩ := located found
      exact distinct
    · refine List.pairwise_iff_getElem.2 fun i j hi hj lt a member_a b member_b same => ?_
      obtain ⟨e, element, here, -⟩ := located (List.getElem?_eq_getElem hi)
      obtain ⟨e', element', here', -⟩ := located (List.getElem?_eq_getElem hj)
      obtain ⟨x, behind, placed, here⟩ := here a member_a
      obtain ⟨x', behind', placed', here'⟩ := here' b member_b
      -- the same path would have the same place at the wildcard
      have one : x = x' := by
        have := here.place next
        rw [same, here'.place next] at this
        exact (Option.some.inj this).symm
      rw [one, placed'] at placed
      have apart := List.pairwise_iff_getElem.1 (g.nodup_places collection) i j
        (by simpa using (List.getElem?_eq_some_iff.1 element).1)
        (by simpa using (List.getElem?_eq_some_iff.1 element').1) lt
      rw [List.getElem_map, List.getElem_map, (List.getElem?_eq_some_iff.1 element).2,
        (List.getElem?_eq_some_iff.1 element').2] at apart
      exact apart (Option.some.inj placed).symm

end Cases

/-- Every finding is located by its path, and no two findings have the same path. -/
theorem addressed (closed : s.graph.Closed) (has : s.graph.Has s.value)
    (keyed : ∀ t, r.Visits template s t → t.KeyedByBraces r) : s.Addressed r template := by
  generalize ahead : s.segments = segments
  induction segments generalizing s with
  | nil => exact addressed_nil has ahead
  | cons segment rest ih =>
    rcases goes : r.move s.value segment rest.isEmpty s.graph with ⟨fault | v | elements, g⟩
    · exact addressed_stop ahead goes
    · have valid : g.Closed ∧ g.Has v := by
        obtain ⟨_, step, -, valid⟩ := Registry.entered_inStep (r := r) closed
          (Graph.Extends.refl s.graph).embeds has segment
        rw [r.entered_eq_move goes] at step valid
        exact ⟨step.closed, valid [v] rfl v List.mem_cons_self⟩
      exact addressed_on ahead goes (ih (s := s.onto v g) valid.1 valid.2
        (fun t visits => keyed t (.on ahead goes visits)) (segments_onto ahead v g))
    · refine addressed_each ahead goes closed has (keyed s (.here s)) fun k slot v q element put => ?_
      obtain ⟨collection, meets, wild, rfl⟩ := (move_eq_each_iff ahead).1 goes
      obtain ⟨closed_g, -, has_g⟩ := meets.grows closed has
      obtain ⟨closed_k, grown⟩ := meets.elements_grow template closed_g has_g closed_g (.refl g)
        (l := (g.elements collection).zipIdx.take k)
        fun e he => List.fst_mem_of_mem_zipIdx (List.mem_of_mem_take he)
      exact ih closed_k
        (grown.has (elements_has closed_g has_g (List.mem_of_getElem? element)))
        (fun t visits => keyed t (.each ahead goes element put visits)) (segments_into ahead put _ _ _)

end Stage

namespace Registry

/-- The paths of a group address its values.  If the braces of the wildcards meet only maps, reading the path of
any field of a group yields exactly the value of that field, from the graph that the group was read from or any
that has grown from it, and the paths of the fields are pairwise different. -/
theorem read_located (r : Registry) (template : Field) {g : Graph} {source : Value}
    (closed : g.Closed) (has : g.Has source) (value : source ≠ .null)
    (wild : template.path.hasWildcard = true)
    (keyed : ∀ s, r.Visits template (.start template source g) s → s.KeyedByBraces r) :
    ∃ (group : FieldGroup) (audits : List Audit) (g₁ : Graph),
      (r.read template source).run g = (.ok (.group group, audits), g₁) ∧
      (∀ f ∈ group.fields, ∀ (h : Graph) (t : Field), g.Extends h → t.path = f.path →
        ∃ found audits' h', (r.read t source).run h = (.ok (found, audits'), h') ∧
          SameContents h' found.values g₁ [f.value]) ∧
      (group.fields.map (·.path)).Nodup := by
  let s := Stage.start template source g
  have addressed : s.Addressed r template := Stage.addressed closed has keyed
  refine ⟨_, _, _, r.read_group template value wild g, fun f member h t grown same => ?_, ?_⟩
  · obtain ⟨finding, found, rfl⟩ := List.mem_map.1 member
    obtain ⟨behind, located⟩ := addressed.located finding found
    -- what the reader follows is what locates the field
    have followed : t.path.followed = behind := by
      have path := located.path
      have head := located.head
      rw [same, Path.followed, head]
      simp only [s, Stage.start] at path ⊢
      cases root : template.path.head.isCollection <;> simp only [root] at path
      · exact (List.cons.inj path).2
      · exact path
    obtain ⟨found, audits', run, values⟩ := r.read_values t value h
    refine ⟨found, audits', _, run, fun depth => ?_⟩
    have again := (content_observation depth).watch_observation (r.reached_keepsStep behind)
    have leads := located.leads _ (content_observation depth)
    have moved := again.grown closed grown has
    rw [← followed] at moved leads
    rw [values, List.map_singleton, ← leads, List.map_eq_flatMap]
    exact moved
  · rw [List.map_map, List.Nodup, List.pairwise_map]
    exact addressed.distinct

/-- The entries of a document with one row and one gap, read through braces. -/
theorem read_located_entries :
    let entries : Tree := .map .any [("a", .map .any [("n", .scalar (.string "x"))]), ("b", .null)]
    let document := Graph.empty.plant (.map .any [("rows", entries)])
    let rows : Segment := ⟨"rows", .entry none, false⟩
    let template : Field := { path := ⟨.root, [rows, .field "n"]⟩ }
    (document.2.Closed ∧ document.2.Has document.1 ∧ document.1 ≠ .null ∧
      template.path.hasWildcard = true ∧
      ∀ s, empty.Visits template (.start template document.1 document.2) s →
        s.KeyedByBraces empty) ∧
      ∃ (group : FieldGroup) (audits : List Audit) (g₁ : Graph),
        (empty.read template document.1).run document.2 = (.ok (.group group, audits), g₁) ∧
        (∀ f ∈ group.fields, ∀ (h : Graph) (t : Field), document.2.Extends h → t.path = f.path →
          ∃ found audits' h', (empty.read t document.1).run h = (.ok (found, audits'), h') ∧
            SameContents h' found.values g₁ [f.value]) ∧
        (group.fields.map (·.path)).Nodup := by
  intro entries document rows template
  have closed : document.2.Closed := by decide
  have has : document.2.Has document.1 := by decide
  have value : document.1 ≠ .null := by decide
  have keyed : ∀ s, empty.Visits template (.start template document.1 document.2) s →
      s.KeyedByBraces empty := by
    intro s visits segment rest collection g meets wild _
    have child : (empty.child document.1 "rows").run document.2 = (.ok (.map 1), document.2) :=
      Prod.ext (by cbv) rfl
    have behind : segment :: rest <:+ [Segment.field "n"] → False := fun suffix => by
      have : segment = .field "n" := by simpa using suffix.subset List.mem_cons_self
      rw [this] at wild
      cases wild
    cases visits with
    | here =>
      have next := meets.next
      cases next
      cases child.symm.trans meets.child
      exact ⟨1, rfl⟩
    | on next _ later =>
      have suffix := later.segments_suffix
      rw [Stage.segments_onto next, meets.next] at suffix
      cases next
      exact (behind suffix).elim
    | each next _ _ put later =>
      have suffix := later.segments_suffix
      rw [Stage.segments_into next put, meets.next] at suffix
      cases next
      exact (behind suffix).elim
  exact ⟨⟨closed, has, value, rfl, keyed⟩, read_located empty template closed has value rfl keyed⟩

end Registry

end FieldBinding
