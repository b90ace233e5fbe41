import FieldBinding.Proofs.Graph.Places
import FieldBinding.Proofs.Reading.Filling

/-!
# Reading groups without types

A path with one wildcard is two lists of accesses with a wildcard between them.  In the empty registry a read follows
the first to a collection, and from every element of the collection it follows the second.

Main results:

* `Registry.Visits.look` — how a walk comes to its only wildcard.
* `Registry.read_group_look`, `Registry.read_group_visited` — the fields of the group, one for each element.
* `Registry.fields_eq_of_places` — a group is known from the places of its collection and the values behind them.
-/

namespace FieldBinding

open FieldBinding.Graph

/-- Runs that yield one answer each and change nothing yield all the answers. -/
theorem joinM_forall₂ {σ α β : Type} {P : α → β → Prop} {f : α → StateM σ (List β)} {l : List α}
    {s : σ} (each : ∀ a ∈ l, ∃ b, f a s = ([b], s) ∧ P a b) :
    ∃ bs, joinM f l s = (bs, s) ∧ List.Forall₂ P l bs := by
  induction l with
  | nil => exact ⟨[], rfl, .nil⟩
  | cons a rest ih =>
    obtain ⟨b, run, h⟩ := each a List.mem_cons_self
    obtain ⟨bs, runs, hs⟩ := ih fun c hc => each c (List.mem_cons_of_mem a hc)
    exact ⟨b :: bs, by rw [joinM_cons, run, runs]; rfl, .cons h hs⟩

variable {g : Graph} {v c : Value}

/-- A child that is not null is what the name leads to. -/
theorem Registry.child_look {s : Segment} (value : c ≠ .null) (g' : Graph) :
    (empty.child v s.name).run g = (.ok c, g') ↔
      g' = g ∧ g.look v (s.names.map Access.name) = c := by
  rw [child_empty]
  by_cases named : s.name = ""
  · rw [if_pos named, Segment.names_of_eq named]
    constructor
    · rintro ⟨⟩
      exact ⟨rfl, rfl⟩
    · rintro ⟨rfl, rfl⟩
      rfl
  rw [if_neg named, Segment.names_of_ne named]
  by_cases names : v.holdsNames
  · have leads : g.look v [.name s.name] = (g.slot? v s.name).getD .null := if_pos names
    rw [if_pos names, List.map_singleton, leads]
    constructor
    · rintro ⟨⟩
      exact ⟨rfl, rfl⟩
    · rintro ⟨rfl, rfl⟩
      rfl
  · have leads : g.look v [.name s.name] = .null := if_neg names
    rw [if_neg names, List.map_singleton, leads]
    constructor
    · rintro ⟨⟩
    · rintro ⟨-, rfl⟩
      exact absurd rfl value

namespace Stage

variable {t : Stage}

/-- The stage behind segments without wildcards. -/
def past (t : Stage) (front : List Segment) : Stage :=
  { t with
    value := t.graph.look t.value (front.flatMap Segment.accesses)
    position := t.position + front.length }

/-- A walk goes on from where accesses lead. -/
theorem walk_past (template : Field) {front rest : List Segment} (ahead : t.segments = front ++ rest)
    (single : ∀ s ∈ front, s.isWildcard = false)
    (value : t.graph.look t.value (front.flatMap Segment.accesses) ≠ .null) :
    t.walk .empty template = (t.past front).walk .empty template ∧ (t.past front).segments = rest := by
  induction front generalizing t with
  | nil => exact ⟨rfl, ahead⟩
  | cons s front ih =>
    rw [List.flatMap_cons] at value
    obtain ⟨same, looks⟩ :=
      Registry.move_look t.graph (single s List.mem_cons_self) t.value (front ++ rest).isEmpty
    rw [walk_cons .empty template ahead]
    rcases goes : Registry.empty.move t.value s (front ++ rest).isEmpty t.graph with
      ⟨fault | w | elements, g⟩ <;> rw [goes] at same looks <;> subst same
    · exact absurd (looks _) value
    · have leads : t.graph.look t.value (s.accesses ++ front.flatMap Segment.accesses) =
          t.graph.look w (front.flatMap Segment.accesses) := looks _
      rw [leads] at value
      have later := ih (t := t.onto w t.graph) (segments_onto ahead w t.graph)
        (fun u hu => single u (List.mem_cons_of_mem s hu)) value
      have place : (t.onto w t.graph).past front = t.past (s :: front) := by
        simp only [past, onto, List.flatMap_cons, leads, List.length_cons, Nat.add_assoc,
          Nat.add_comm 1]
      rwa [place] at later
    · exact False.elim looks

end Stage

/-- A walk comes to its only wildcard by accesses. -/
theorem Registry.Visits.look {template : Field} {t s : Stage} {segment : Segment}
    {rest : List Segment} (visits : Registry.empty.Visits template t s)
    (next : s.segments = segment :: rest) (wild : segment.isWildcard = true)
    (one : t.segments.countP Segment.isWildcard = 1) :
    ∃ front, t.segments = front ++ segment :: rest ∧ (∀ x ∈ front, x.isWildcard = false) ∧
      s.graph = t.graph ∧ ∀ accesses,
        t.graph.look t.value (front.flatMap Segment.accesses ++ accesses) =
          t.graph.look s.value accesses := by
  induction visits with
  | here s => exact ⟨[], next, by simp, rfl, fun _ => rfl⟩
  | @on t s before behind v g nextHere goes visits ih =>
    have suffix := visits.segments_suffix
    rw [Stage.segments_onto nextHere, next] at suffix
    rw [nextHere] at one
    obtain ⟨plain, one⟩ := Stage.single_of_count one (suffix.subset List.mem_cons_self) wild
    obtain ⟨same, looks⟩ := move_look t.graph plain t.value behind.isEmpty
    rw [goes] at same looks
    obtain rfl : g = t.graph := same
    obtain ⟨front, ahead, single, graph, leads⟩ := ih next (by rwa [Stage.segments_onto nextHere])
    rw [Stage.segments_onto nextHere] at ahead
    refine ⟨before :: front, by rw [nextHere, ahead]; rfl, by simpa [plain] using single, graph,
      fun accesses => ?_⟩
    rw [List.flatMap_cons, List.append_assoc, looks]
    exact leads accesses
  | @each t s before behind elements g k slot v q nextHere goes element put visits ih =>
    obtain ⟨_, _, here, _⟩ := (Stage.move_eq_each_iff nextHere).1 goes
    have suffix := visits.segments_suffix
    rw [Stage.segments_into nextHere put, next] at suffix
    rw [nextHere] at one
    obtain ⟨plain, -⟩ := Stage.single_of_count one (suffix.subset List.mem_cons_self) wild
    rw [here] at plain
    cases plain

namespace Registry

/-- The field of a group that belongs to an element. -/
def FieldOf (template : Field) (position : Nat) (rest : List Segment) (g : Graph)
    (e : (Slot × Value) × Nat) (f : Field) : Prop :=
  ∃ q, template.path.withSlotAt position e.1.1 = .ok q ∧
    f = (found template q (g.look e.1.2 (rest.flatMap Segment.accesses)) (some e.2) g).field

/-- A read of a path with one wildcard yields a field for each element of the collection that the accesses in front
of the wildcard lead to, and changes nothing. -/
theorem read_group_look (g : Graph) {template : Field} {source c : Value} {front rest : List Segment}
    {segment : Segment} (wildcard : template.path.WildcardAt front segment rest)
    (leads : g.look source (Path.accessesTo front segment) = c) (collection : c.isCollection = true)
    (takes : segment.Takes c) :
    ∃ fields audits, (empty.read template source).run g =
        (.ok (.group ⟨template.path, template.type, fields⟩, audits), g) ∧
      List.Forall₂ (FieldOf template (template.path.positionAfter front) rest g) (g.elements c).zipIdx
        fields := by
  have c_value : c ≠ .null := by
    rintro rfl
    cases collection
  rw [Path.accessesTo, look_append] at leads
  have front_value : g.look source (front.flatMap Segment.accesses) ≠ .null := by
    intro null
    rw [null, look_null] at leads
    exact c_value leads.symm
  have value : source ≠ .null := by
    rintro rfl
    exact front_value (look_null g _)
  obtain ⟨walk, next⟩ := Stage.walk_past template (t := .start template source g)
    ((Stage.segments_start template source g).trans wildcard.followed) wildcard.front_single front_value
  let u := (Stage.start template source g).past front
  have meets : u.Meets empty segment rest c g :=
    ⟨next, wildcard.brackets, (child_look c_value g).2 ⟨rfl, leads⟩, collection⟩
  obtain ⟨findings, all, found⟩ := joinM_forall₂ (f := empty.followAt template u.path u.position rest)
    (P := fun e finding => FieldOf template u.position rest g e finding.field) (s := g)
    (l := (g.elements c).zipIdx) fun e he => by
      obtain ⟨⟨slot, v⟩, k⟩ := e
      obtain ⟨q, put⟩ := meets.put takes (List.fst_mem_of_mem_zipIdx he)
      have behind := Stage.segments_into next put v k g
      obtain ⟨finding, walk, field⟩ := Stage.walk_look template (t := u.into q v k g)
        (by rw [behind]; exact wildcard.rest_single)
      rw [behind] at field
      exact ⟨finding, (Stage.followAt_eq_walk .empty template next put v k g).trans walk, q, put, field⟩
  refine ⟨findings.map (·.field), findings.filterMap (·.audit?), ?_, ?_⟩
  · rw [read_group empty template value wildcard.hasWildcard g, walk,
      Stage.walk_wildcard template meets wildcard.wild, all]
  · exact List.forall₂_map_right_iff.2 found

/-- The same of a wildcard that a walk has come to. -/
theorem read_group_visited {template : Field} {source c : Value} {g g' : Graph} {s : Stage}
    {segment : Segment} {rest : List Segment}
    (visits : empty.Visits template (.start template source g) s)
    (meets : s.Meets empty segment rest c g') (wild : segment.isWildcard = true)
    (takes : segment.Takes c) (one : template.path.segments.countP Segment.isWildcard = 1) :
    g' = g ∧ ∃ front fields audits, template.path.WildcardAt front segment rest ∧
      g.look source (Path.accessesTo front segment) = c ∧
      (empty.read template source).run g =
        (.ok (.group ⟨template.path, template.type, fields⟩, audits), g) ∧
      List.Forall₂ (FieldOf template (template.path.positionAfter front) rest g) (g.elements c).zipIdx
        fields := by
  have followed_one : (Stage.start template source g).segments.countP Segment.isWildcard = 1 := by
    rw [Stage.segments_start, Path.countP_followed, one]
  obtain ⟨front, followed, single, graph, leads⟩ := visits.look meets.next wild followed_one
  rw [followed, List.countP_append, List.countP_cons_of_pos wild] at followed_one
  rw [Stage.segments_start] at followed
  have none : rest.countP Segment.isWildcard = 0 := by omega
  have wildcard : template.path.WildcardAt front segment rest :=
    ⟨followed, single, wild, by simpa using List.countP_eq_zero.1 none⟩
  have value : c ≠ .null := by
    rintro rfl
    cases meets.collection
  obtain ⟨rfl, child⟩ := (child_look value g').1 meets.child
  rw [graph] at child
  have leads : g.look source (Path.accessesTo front segment) = c := (leads _).trans child
  obtain ⟨fields, audits, read, each⟩ := read_group_look g wildcard leads meets.collection takes
  exact ⟨graph, front, fields, audits, wildcard, leads, read, each⟩

/-! ## The fields of a group -/

namespace FieldOf

variable {template : Field} {position : Nat} {rest : List Segment} {g g' : Graph} {slot : Slot}
  {v v' : Value} {k : Nat} {f f' : Field}

theorem put (field : FieldOf template position rest g ((slot, v), k) f) :
    template.path.withSlotAt position slot = .ok f.path := by
  obtain ⟨q, put, rfl⟩ := field
  exact put

theorem value (field : FieldOf template position rest g ((slot, v), k) f) :
    f.value = g.look v (rest.flatMap Segment.accesses) := by
  obtain ⟨q, -, rfl⟩ := field
  rfl

/-- One field belongs to each element, in order. -/
theorem getElem? {c : Value} {fields : List Field}
    (each : List.Forall₂ (FieldOf template position rest g) (g.elements c).zipIdx fields) :
    fields.length = (g.elements c).length ∧ ∀ (k : Nat) (f : Field), fields[k]? = some f →
      ∃ slot v, (g.elements c)[k]? = some (slot, v) ∧ FieldOf template position rest g ((slot, v), k) f := by
  obtain ⟨length, each⟩ := List.forall₂_iff_get.1 each
  rw [List.length_zipIdx] at length
  refine ⟨length.symm, fun k f found => ?_⟩
  obtain ⟨lt, rfl⟩ := List.getElem?_eq_some_iff.1 found
  have field := each k (by simpa [length] using lt) lt
  simp only [List.get_eq_getElem, List.getElem_zipIdx, Nat.zero_add] at field
  exact ⟨_, _, List.getElem?_eq_getElem (length ▸ lt), field⟩

theorem has {c : Value} {fields : List Field}
    (each : List.Forall₂ (FieldOf template position rest g) (g.elements c).zipIdx fields)
    (closed : g.Closed) (has : g.Has c) (mem : f ∈ fields) : g.Has f.value := by
  obtain ⟨k, found⟩ := List.mem_iff_getElem?.1 mem
  obtain ⟨slot, v, element, here⟩ := (getElem? each).2 k f found
  rw [here.value]
  exact closed.has_look (elements_has closed has (List.mem_of_getElem? element)) _

/-- Where no type is declared a field has the type of its value. -/
theorem typed {c : Value} {fields : List Field}
    (each : List.Forall₂ (FieldOf template position rest g) (g.elements c).zipIdx fields)
    (untyped : template.type = none) (mem : f ∈ fields) :
    f.value = .null ∨ f.type = some (g.tagOf f.value) := by
  obtain ⟨k, found⟩ := List.mem_iff_getElem?.1 mem
  obtain ⟨slot, v, -, q, -, rfl⟩ := (getElem? each).2 k f found
  by_cases null : g.look v (rest.flatMap Segment.accesses) = .null
  · exact .inl null
  · have value : (g.look v (rest.flatMap Segment.accesses)).isNull = false :=
      Value.isNull_eq_false_iff.2 null
    refine .inr ?_
    simp [Registry.found, untyped, value]

/-- A field is known from the place of its element and its value. -/
theorem unique (field : FieldOf template position rest g ((slot, v), k) f)
    (field' : FieldOf template position rest g' ((slot, v'), k) f') (value : f'.value = f.value)
    (type : g'.tagOf f.value = g.tagOf f.value) : f' = f := by
  obtain ⟨q, put, rfl⟩ := field
  obtain ⟨q', put', rfl⟩ := field'
  rw [put, Except.ok.injEq] at put'
  subst put'
  simp only [found] at value type ⊢
  rw [value, type]

end FieldOf

/-- Two groups of one path are the same if their collections have the same places, with the same values behind them. -/
theorem fields_eq_of_places {template : Field} {position : Nat} {rest : List Segment} {g g' : Graph}
    {c c' : Value} {fields fields' : List Field}
    (each : List.Forall₂ (FieldOf template position rest g) (g.elements c).zipIdx fields)
    (each' : List.Forall₂ (FieldOf template position rest g') (g'.elements c').zipIdx fields')
    (places : g'.places c' = g.places c)
    (values : ∀ (k : Nat) (field : Field) (slot : Slot), fields[k]? = some field →
      (g.places c)[k]? = some slot →
        g'.look (g'.elementAt c' slot) (rest.flatMap Segment.accesses) = field.value)
    (types : ∀ field ∈ fields, g'.tagOf field.value = g.tagOf field.value) : fields' = fields := by
  obtain ⟨length, each⟩ := FieldOf.getElem? each
  obtain ⟨length', each'⟩ := FieldOf.getElem? each'
  have elements : (g'.elements c').length = (g.elements c).length := by
    simpa [Graph.places] using congrArg List.length places
  refine List.ext_getElem? fun k => ?_
  cases found : fields[k]? with
  | none =>
    rw [List.getElem?_eq_none_iff] at found ⊢
    omega
  | some field =>
    have lt : k < fields'.length := by
      have := (List.getElem?_eq_some_iff.1 found).1
      omega
    have found' := List.getElem?_eq_getElem lt
    obtain ⟨slot, v, element, here⟩ := each k field found
    obtain ⟨slot', v', element', here'⟩ := each' k _ found'
    have place : (g.places c)[k]? = some slot := by rw [Graph.places, List.getElem?_map, element]; rfl
    have place' : (g'.places c')[k]? = some slot' := by rw [Graph.places, List.getElem?_map, element']; rfl
    rw [places, place, Option.some.injEq] at place'
    subst place'
    have value := values k field slot found place
    rw [elementAt_of_mem_elements (List.mem_of_getElem? element')] at value
    rw [found', here.unique here' (here'.value.trans value) (types field (List.mem_of_getElem? found))]

end Registry

end FieldBinding
