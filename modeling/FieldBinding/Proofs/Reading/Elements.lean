import Mathlib
import FieldBinding.Proofs.Reading.Stages

/-!
# The elements under a wildcard

A wildcard goes on to every element of the collection that it meets, in order, and each element has its own part
of the findings.  An element is left out only if the brackets do not take its place: the brackets of a sequence
take no key, so they take nothing from a map.  An element that is not left out has findings, unless a wildcard
behind it meets a collection without elements.

Main results:

* `Stage.walk_wildcard` — the findings under a wildcard are those of the elements, one after another.
* `Stage.walk_eq_nil` — a walk without findings has come to a wildcard that leads nowhere.
* `Registry.read_keeps_elements` — the statement for reads.
-/

namespace FieldBinding

/-- Joining single elements loses nothing. -/
theorem map_flatten_of_singletons {α : Type} {parts : List (List α)}
    (single : ∀ part ∈ parts, ∃ a, part = [a]) : parts.flatten.map ([·]) = parts := by
  induction parts with
  | nil => rfl
  | cons part rest ih =>
    obtain ⟨a, rfl⟩ := single part List.mem_cons_self
    rw [List.flatten_cons, List.map_append, ih fun part member =>
      single part (List.mem_cons_of_mem _ member)]
    rfl

/-- The brackets of a segment take the places of a collection. -/
def Segment.Takes (segment : Segment) (collection : Value) : Prop :=
  segment.selector.bracket? = some .entry ∨ ∀ id, collection ≠ .map id

namespace Registry

/-- Null has no child but itself. -/
theorem child_null {r : Registry} {name : String} {v : Value} {g g' : Graph}
    (run : (r.child .null name).run g = (.ok v, g')) : v = .null := by
  unfold child at run
  by_cases itself : name = ""
  · simp only [itself, if_true, Running.run_pure] at run
    cases run
    rfl
  · simp only [itself, if_false, Running.run_throw] at run
    cases run

theorem behind_eq_each {g : Graph} {segment : Segment} {child : Value} {last : Bool}
    {elements : List (Slot × Value)} (goes : behind g segment child last = .each elements) :
    segment.isCollection = true ∧ child.isCollection = true ∧ segment.selector.slot? = none ∧
      elements = g.elements child := by
  unfold behind at goes
  split at goes
  · cases goes
  next brackets =>
  split at goes
  · cases goes
  split at goes
  · cases goes
  next places =>
  split at goes
  · cases goes
  next slot =>
  cases goes
  exact ⟨by simpa using brackets, by simpa using places, slot, rfl⟩

end Registry

namespace Stage

/-- The brackets of the next segment meet a collection: it is the child that the name stands for. -/
structure Meets (r : Registry) (s : Stage) (segment : Segment) (rest : List Segment)
    (collection : Value) (g : Graph) : Prop where
  next : s.segments = segment :: rest
  brackets : segment.isCollection = true
  child : (r.child s.value segment.name).run s.graph = (.ok collection, g)
  collection : collection.isCollection = true

/-- The next segment is a wildcard that leads nowhere: there are no elements, or the brackets take none. -/
def Barren (r : Registry) (s : Stage) : Prop :=
  ∃ segment rest collection g, s.Meets r segment rest collection g ∧ segment.isWildcard = true ∧
    (g.elements collection = [] ∨ ¬segment.Takes collection)

theorem Meets.value {r : Registry} {s : Stage} {segment : Segment} {rest : List Segment}
    {collection : Value} {g : Graph} (meets : s.Meets r segment rest collection g) :
    ¬s.value.isNull := by
  intro null
  have child := meets.child
  rw [Value.isNull_iff.1 null] at child
  have places := meets.collection
  rw [Registry.child_null child] at places
  cases places

/-- The only move to many elements is that of a wildcard which meets a collection. -/
theorem move_eq_each_iff {r : Registry} {s : Stage} {segment : Segment} {rest : List Segment}
    (next : s.segments = segment :: rest) {elements : List (Slot × Value)} {g : Graph} :
    r.move s.value segment rest.isEmpty s.graph = (.each elements, g) ↔
      ∃ collection, s.Meets r segment rest collection g ∧ segment.isWildcard = true ∧
        elements = g.elements collection := by
  constructor
  · intro goes
    by_cases value : s.value.isNull
    · simp only [Registry.move, value] at goes
      cases goes
    rw [Registry.move_run r value] at goes
    rcases run : (r.child s.value segment.name).run s.graph with ⟨e | collection, g'⟩
    · rw [run] at goes
      cases goes
    rw [run] at goes
    obtain ⟨onward, rfl⟩ := Prod.mk.inj goes
    obtain ⟨brackets, places, slot, rfl⟩ := Registry.behind_eq_each onward
    exact ⟨collection, ⟨next, brackets, run, places⟩,
      by simp [Segment.isWildcard, Segment.isIndexed, brackets, slot], rfl⟩
  · rintro ⟨collection, meets, wild, rfl⟩
    obtain ⟨_, brackets, run, places⟩ := id meets
    have notNull : collection.isNull = false :=
      Value.isNull_eq_false_iff.2 (Value.ne_null_of_isCollection places)
    have slot : segment.selector.slot? = none := by
      simpa [Segment.isWildcard, Segment.isIndexed, brackets] using wild
    rw [Registry.move_run r meets.value, run]
    simp [Registry.behind, brackets, notNull, places, slot]

section Wildcard

variable {r : Registry} {s : Stage} {segment : Segment} {rest : List Segment} {collection : Value}
  {g : Graph}

/-- The findings under a wildcard are those of the elements, one after another. -/
theorem walk_wildcard (template : Field) (meets : s.Meets r segment rest collection g)
    (wild : segment.isWildcard = true) :
    s.walk r template =
      joinM (r.followAt template s.path s.position rest) (g.elements collection).zipIdx g := by
  have goes := (move_eq_each_iff meets.next).2 ⟨collection, meets, wild, rfl⟩
  rw [walk_cons r template meets.next, goes]

/-- Brackets that take the places of a collection can be filled with each of them. -/
theorem Meets.put (meets : s.Meets r segment rest collection g) (takes : segment.Takes collection)
    {e : Slot × Value} (element : e ∈ g.elements collection) :
    ∃ q, s.path.withSlotAt s.position e.1 = .ok q := by
  have taken : (segment.withSlot? e.1).isSome := by
    have brackets := meets.brackets
    have places := meets.collection
    cases collection with
    | sequence kind id =>
      obtain ⟨_, _, rfl⟩ := List.mem_map.1 element
      rfl
    | map id =>
      obtain ⟨_, _, rfl⟩ := List.mem_map.1 element
      rcases takes with entry | other
      · simp [Segment.withSlot?, entry]
      · exact absurd rfl (other id)
    | _ => cases places
  obtain ⟨q, put, _⟩ :=
    Path.withSlotAt_of_takes (getElem?_position meets.next) meets.brackets taken
  exact ⟨q, put⟩

/-- The stage at an element under a wildcard. -/
theorem Meets.visits (template : Field) (meets : s.Meets r segment rest collection g)
    (wild : segment.isWildcard = true) {k : Nat} {slot : Slot} {v : Value}
    (element : (g.elements collection)[k]? = some (slot, v)) {q : Path}
    (put : s.path.withSlotAt s.position slot = .ok q) :
    r.Visits template s (s.into q v k (joinM (r.followAt template s.path s.position rest)
      ((g.elements collection).zipIdx.take k) g).2) :=
  .each meets.next ((move_eq_each_iff meets.next).2 ⟨collection, meets, wild, rfl⟩) element put
    (.here _)

end Wildcard

/-- A walk without findings has come to a wildcard that leads nowhere. -/
theorem walk_eq_nil (r : Registry) (template : Field) {s : Stage}
    (none : (s.walk r template).1 = []) : ∃ t, r.Visits template s t ∧ t.Barren r := by
  generalize ahead : s.segments = segments
  induction segments generalizing s with
  | nil =>
    rw [walk_nil r template ahead] at none
    cases none
  | cons segment rest ih =>
    rw [walk_cons r template ahead] at none
    rcases goes : r.move s.value segment rest.isEmpty s.graph with ⟨fault | v | elements, g⟩
    · rw [goes] at none
      cases none
    · rw [goes] at none
      obtain ⟨t, visits, barren⟩ := ih none (segments_onto ahead v g)
      exact ⟨t, .on ahead goes visits, barren⟩
    · obtain ⟨collection, meets, wild, rfl⟩ := (move_eq_each_iff ahead).1 goes
      by_cases takes : segment.Takes collection
      case neg => exact ⟨s, .here s, _, _, _, _, meets, wild, .inr takes⟩
      rw [goes] at none
      cases first : g.elements collection with
      | nil => exact ⟨s, .here s, _, _, _, _, meets, wild, .inl first⟩
      | cons e others =>
        -- the first element has no findings either
        obtain ⟨q, put⟩ := meets.put takes (first ▸ List.mem_cons_self)
        simp only [first, List.zipIdx_cons, joinM_cons, List.append_eq_nil_iff] at none
        rw [followAt_eq_walk r template ahead put] at none
        obtain ⟨t, visits, barren⟩ := ih none.1 (segments_into ahead put _ _ _)
        exact ⟨t, .each (k := 0) ahead goes (by rw [first]; rfl) put visits, barren⟩

/-- Without a wildcard there is one finding, with the index of the stage. -/
theorem walk_single (r : Registry) (template : Field) {s : Stage}
    (single : s.segments.any Segment.isWildcard = false) :
    ∃ f, (s.walk r template).1 = [f] ∧ f.field.index = s.index := by
  generalize ahead : s.segments = segments at single
  induction segments generalizing s with
  | nil => exact ⟨_, by rw [walk_nil r template ahead], rfl⟩
  | cons segment rest ih =>
    rw [List.any_cons, Bool.or_eq_false_iff] at single
    rw [walk_cons r template ahead]
    rcases goes : r.move s.value segment rest.isEmpty s.graph with ⟨fault | v | elements, g⟩
    · exact ⟨_, rfl, rfl⟩
    · exact ih (segments_onto ahead v g) single.2
    · obtain ⟨_, _, wild, _⟩ := (move_eq_each_iff ahead).1 goes
      rw [single.1] at wild
      cases wild

/-- If one of several segments is a wildcard and another comes first, that one is none. -/
theorem single_of_count {before segment : Segment} {behind : List Segment}
    (one : (before :: behind).countP Segment.isWildcard = 1) (later : segment ∈ behind)
    (wild : segment.isWildcard = true) :
    before.isWildcard = false ∧ behind.countP Segment.isWildcard = 1 := by
  have more := List.countP_pos_iff.2 ⟨segment, later, wild⟩
  have plain : before.isWildcard = false := by
    by_contra here
    rw [List.countP_cons_of_pos (by simpa using here)] at one
    omega
  refine ⟨plain, ?_⟩
  rwa [List.countP_cons_of_neg (by simp [plain])] at one

/-- Up to the first wildcard a walk has only one way, and all its findings are behind that wildcard. -/
theorem walk_eq_of_first {r : Registry} {template : Field} {s t : Stage} {segment : Segment}
    {rest : List Segment} (visits : r.Visits template s t) (next : t.segments = segment :: rest)
    (wild : segment.isWildcard = true) (one : s.segments.countP Segment.isWildcard = 1) :
    s.walk r template = t.walk r template := by
  induction visits with
  | here s => rfl
  | @on s t before behind v g nextHere goes visits ih =>
    have suffix := visits.segments_suffix
    rw [segments_onto nextHere, next] at suffix
    rw [nextHere] at one
    obtain ⟨-, one⟩ := single_of_count one (suffix.subset List.mem_cons_self) wild
    rw [walk_cons r template nextHere, goes]
    exact ih next (by rwa [segments_onto nextHere])
  | @each s t before behind elements g k slot v q nextHere goes element put visits ih =>
    obtain ⟨_, _, here, _⟩ := (move_eq_each_iff nextHere).1 goes
    have suffix := visits.segments_suffix
    rw [segments_into nextHere put, next] at suffix
    rw [nextHere] at one
    obtain ⟨plain, -⟩ := single_of_count one (suffix.subset List.mem_cons_self) wild
    rw [here] at plain
    cases plain

end Stage

/-! ## Groups -/

theorem Path.followed_subset (p : Path) : p.followed ⊆ p.segments := by
  unfold followed
  split
  · exact List.Subset.refl _
  · exact List.subset_cons_self _ _

theorem Path.countP_followed (p : Path) :
    p.followed.countP Segment.isWildcard = p.segments.countP Segment.isWildcard := by
  unfold followed
  split
  · rfl
  · next plain =>
    rw [segments, List.countP_cons_of_neg]
    simp [Segment.isWildcard, plain]

namespace Registry

/-- A read of a path with a wildcard yields the group of the fields that the walk finds. -/
theorem read_group (r : Registry) (template : Field) {source : Value} (value : source ≠ .null)
    (wild : template.path.hasWildcard = true) (g : Graph) :
    let walk := (Stage.start template source g).walk r template
    (r.read template source).run g =
      (.ok (.group ⟨template.path, template.type, walk.1.map (·.field)⟩, walk.1.filterMap (·.audit?)),
        walk.2) := by
  intro walk
  rw [read_eq_walk r template value, extracted, wild]
  rfl

end Registry

namespace Stage

variable {r : Registry} {s : Stage} {segment : Segment} {rest : List Segment} {collection : Value}
  {g : Graph}

/-- At a wildcard that takes the places of the collection, every element has its own part of the findings: what
the walk finds from the stage at that element. -/
theorem Meets.parts (template : Field) (meets : s.Meets r segment rest collection g)
    (wild : segment.isWildcard = true) (takes : segment.Takes collection) :
    ∃ parts : List (List Finding), (s.walk r template).1 = parts.flatten ∧
      parts.length = (g.elements collection).length ∧
      ∀ k part, parts[k]? = some part → ∃ slot v q h,
        (g.elements collection)[k]? = some (slot, v) ∧
        s.path.withSlotAt s.position slot = .ok q ∧
        r.Visits template s (s.into q v k h) ∧ part = ((s.into q v k h).walk r template).1 := by
  refine ⟨_, by rw [walk_wildcard template meets wild, joinM_fst],
    by rw [length_mapM, List.length_zipIdx], fun k part found => ?_⟩
  rw [getElem?_mapM, Option.map_eq_some_iff] at found
  obtain ⟨⟨⟨slot, v⟩, i⟩, element, rfl⟩ := found
  rw [List.getElem?_zipIdx, Option.map_eq_some_iff] at element
  obtain ⟨_, element, same⟩ := element
  rw [Nat.zero_add] at same
  cases same
  obtain ⟨q, put⟩ := meets.put takes (List.mem_of_getElem? element)
  exact ⟨slot, v, q, _, element, put, meets.visits template wild element put,
    congrArg Prod.fst (followAt_eq_walk r template meets.next put v k _)⟩

/-- If no wildcard is left behind this one, the findings are one for each element, in order. -/
theorem walk_last_wildcard (template : Field) (meets : s.Meets r segment rest collection g)
    (wild : segment.isWildcard = true) (takes : segment.Takes collection)
    (last : rest.any Segment.isWildcard = false) :
    (s.walk r template).1.length = (g.elements collection).length ∧
      ∀ (k : Nat) (f : Finding), (s.walk r template).1[k]? = some f → f.field.index = some k := by
  obtain ⟨parts, whole, length, part_eq⟩ := meets.parts template wild takes
  have single : ∀ (k : Nat) (part : List Finding), parts[k]? = some part →
      ∃ f : Finding, part = [f] ∧ f.field.index = some k := by
    intro k part found
    obtain ⟨slot, v, q, h, _, put, _, rfl⟩ := part_eq k part found
    exact walk_single r template (s := s.into q v k h) (by rwa [segments_into meets.next put])
  have same : parts.flatten.map ([·]) = parts := map_flatten_of_singletons fun part member => by
    obtain ⟨k, found⟩ := List.mem_iff_getElem?.1 member
    obtain ⟨f, one, _⟩ := single k part found
    exact ⟨f, one⟩
  rw [whole]
  refine ⟨by rw [← length, ← same, List.length_map, same], fun k f found => ?_⟩
  obtain ⟨f', one, index⟩ := single k [f] (by rw [← same, List.getElem?_map, found]; rfl)
  cases one
  exact index

end Stage

namespace Registry

/-- Wildcard reads drop nothing.  At a wildcard that meets a collection and whose brackets take the places of
that collection, every element has its own part of the group, in order.  The part is not empty, unless behind the
element the walk comes to a wildcard that leads nowhere, and it is a single field if there is no wildcard behind.
If the path has no other wildcard, the group consists of one field for each element, in order. -/
theorem read_keeps_elements (r : Registry) (template : Field) {source : Value} (g : Graph)
    (value : source ≠ .null) {s : Stage} (visits : r.Visits template (.start template source g) s)
    {segment : Segment} {rest : List Segment} {collection : Value} {g' : Graph}
    (meets : s.Meets r segment rest collection g') (wild : segment.isWildcard = true)
    (takes : segment.Takes collection) :
    ∃ (group : FieldGroup) (audits : List Audit) (g₁ : Graph) (before after : List Field)
        (parts : List (List Field)),
      (r.read template source).run g = (.ok (.group group, audits), g₁) ∧
      group.fields = before ++ parts.flatten ++ after ∧
      parts.length = (g'.elements collection).length ∧
      (∀ k part, parts[k]? = some part → ∃ slot v q h,
        (g'.elements collection)[k]? = some (slot, v) ∧
        s.path.withSlotAt s.position slot = .ok q ∧
        r.Visits template s (s.into q v k h) ∧
        part = ((s.into q v k h).walk r template).1.map (·.field) ∧
        (part ≠ [] ∨ ∃ t, r.Visits template (s.into q v k h) t ∧ t.Barren r) ∧
        (rest.any Segment.isWildcard = false → ∃ f, part = [f] ∧ f.index = some k)) ∧
      (template.path.segments.countP Segment.isWildcard = 1 →
        group.fields.length = (g'.elements collection).length ∧
        ∀ (k : Nat) (f : Field), group.fields[k]? = some f → f.index = some k) := by
  have behind : segment :: rest <:+ template.path.followed := by
    rw [← meets.next, ← Stage.segments_start template source g]
    exact visits.segments_suffix
  have wildcard : template.path.hasWildcard = true :=
    List.any_eq_true.2 ⟨segment,
      template.path.followed_subset (behind.subset List.mem_cons_self), wild⟩
  obtain ⟨parts, here, length, part_eq⟩ := meets.parts template wild takes
  obtain ⟨before, after, whole⟩ := visits.walk_infix
  refine ⟨_, _, _, before.map (·.field), after.map (·.field), parts.map (·.map (·.field)),
    r.read_group template value wildcard g, ?_, ?_, ?_, ?_⟩
  · rw [← whole, here]
    simp [List.map_flatten]
  · rw [List.length_map, length]
  · intro k part found
    rw [List.getElem?_map, Option.map_eq_some_iff] at found
    obtain ⟨part, found, rfl⟩ := found
    obtain ⟨slot, v, q, h, element, put, visited, rfl⟩ := part_eq k part found
    refine ⟨slot, v, q, h, element, put, visited, rfl, ?_, fun last => ?_⟩
    · by_cases empty : ((s.into q v k h).walk r template).1 = []
      · exact .inr (Stage.walk_eq_nil r template empty)
      · exact .inl (by simpa using empty)
    · obtain ⟨f, one, index⟩ :=
        Stage.walk_single r template (s := s.into q v k h) (by rwa [Stage.segments_into meets.next put])
      exact ⟨f.field, by rw [one]; rfl, index⟩
  · intro one
    have last : rest.any Segment.isWildcard = false := by
      by_contra more
      obtain ⟨other, member, wildToo⟩ := List.any_eq_true.1 (by simpa using more)
      have two := behind.sublist.countP_le (p := Segment.isWildcard)
      have := List.countP_pos_iff.2 ⟨other, member, wildToo⟩
      rw [List.countP_cons_of_pos wild, template.path.countP_followed, one] at two
      omega
    have all : (Stage.start template source g).walk r template = s.walk r template :=
      Stage.walk_eq_of_first visits meets.next wild
        (by rw [Stage.segments_start, template.path.countP_followed, one])
    obtain ⟨count, indexes⟩ := Stage.walk_last_wildcard template meets wild takes last
    rw [all]
    refine ⟨by rw [List.length_map, count], fun k f found => ?_⟩
    rw [List.getElem?_map, Option.map_eq_some_iff] at found
    obtain ⟨finding, found, rfl⟩ := found
    exact indexes k finding found

/-- The rows of a document with one row and one gap. -/
theorem read_keeps_elements_rows :
    let rows : Tree := .sequence .list .any [.map .any [("n", .scalar (.string "x"))], .null]
    let document := Graph.empty.plant (.map .any [("rows", rows)])
    let segment : Segment := ⟨"rows", .element .list none, false⟩
    let template : Field := { path := ⟨.root, [segment, .field "n"]⟩ }
    let s := Stage.start template document.1 document.2
    (document.1 ≠ .null ∧ empty.Visits template s s ∧
      s.Meets empty segment [.field "n"] (.sequence .list 0) document.2 ∧
      segment.isWildcard = true ∧ segment.Takes (.sequence .list 0)) ∧
      ∃ (group : FieldGroup) (audits : List Audit) (g₁ : Graph),
        (empty.read template document.1).run document.2 = (.ok (.group group, audits), g₁) ∧
        group.fields.length = 2 ∧
        ∀ (k : Nat) (f : Field), group.fields[k]? = some f → f.index = some k := by
  intro rows document segment template s
  have value : document.1 ≠ .null := by decide
  have meets : s.Meets empty segment [.field "n"] (.sequence .list 0) document.2 :=
    ⟨rfl, rfl, Prod.ext (by cbv) rfl, rfl⟩
  have takes : segment.Takes (.sequence .list 0) := .inr (by simp)
  obtain ⟨group, audits, g₁, _, _, _, run, _, _, _, one⟩ :=
    read_keeps_elements empty template document.2 value (.here s) meets rfl takes
  exact ⟨⟨value, .here s, meets, rfl, takes⟩, group, audits, g₁, run, one (by decide)⟩

/-- Elements that have no field in the group: a row without cells under two wildcards, and an entry under the
brackets of a sequence. -/
theorem read_drops_elements :
    let row : Tree := .map .any [("cells", .sequence .list .any [])]
    let table := Graph.empty.plant (.map .any [("rows", .sequence .list .any [row])])
    let cells : Segment := ⟨"cells", .element .list none, false⟩
    let rows : Segment := ⟨"rows", .element .list none, false⟩
    let inTable : Field := { path := ⟨.root, [rows, cells]⟩ }
    let entry : Tree := .map .any [("a", .scalar (.string "x"))]
    let nested := Graph.empty.plant (.map .any [("m", entry)])
    let m : Segment := ⟨"m", .element .array none, false⟩
    let inMap : Field := { path := ⟨.root, [m]⟩ }
    ((Stage.start inTable table.1 table.2).Meets empty rows [cells] (.sequence .list 1) table.2 ∧
      rows.isWildcard = true ∧ (table.2.elements (.sequence .list 1)).length = 1 ∧
      ((empty.read inTable table.1).run table.2).1 =
        .ok (.group ⟨inTable.path, none, []⟩, [])) ∧
    (Stage.start inMap nested.1 nested.2).Meets empty m [] (.map 0) nested.2 ∧
      m.isWildcard = true ∧ (nested.2.elements (.map 0)).length = 1 ∧
      ((empty.read inMap nested.1).run nested.2).1 = .ok (.group ⟨inMap.path, none, []⟩, []) := by
  intro row table cells rows inTable entry nested m inMap
  refine ⟨⟨⟨rfl, rfl, Prod.ext (by cbv) rfl, rfl⟩, rfl, rfl, ?_⟩,
    ⟨rfl, rfl, Prod.ext (by cbv) rfl, rfl⟩, rfl, rfl, ?_⟩
  · cbv
  · cbv

end Registry

end FieldBinding
