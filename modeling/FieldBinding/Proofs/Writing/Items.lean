import FieldBinding.Delimited.Separate
import FieldBinding.Proofs.Path.Indexing
import FieldBinding.Proofs.Reading.Remarks
import FieldBinding.Proofs.Writing.GroupRoundTrip

/-!
# Items that are written and read again

A text that is separated at a path with a wildcard becomes a group: the field of each item has the path with the number
of the item in the brackets of the wildcard.  Such a path is never refused, so there is a field for every item.  The
numbers are the places of a sequence with as many elements as there are items.  So the writer makes that sequence, and
whoever reads the path of the wildcard from the new root is given the items, in order.  For this there has to be room
for the indexes that the path has besides.

Main results:

* `Graph.itemFields_eq` — the fields of the items; no path is refused.
* `Writer.writeGroup_commit_values` — a group of texts at the places of a sequence is read again as it was written.
* `Writer.writeGroup_commit_items` — so are the items of a text.
-/

namespace FieldBinding

open FieldBinding.Graph

/-! ## The paths of items -/

namespace Path

variable {p : Path} {front rest : List Segment} {segment : Segment}

/-- The position of the first wildcard.  It lies behind the path if there is none. -/
def wildcardPosition (p : Path) : Nat :=
  p.segments.findIdx Segment.isWildcard

/-- The path with a number in the brackets of its first wildcard. -/
def numbered (p : Path) (i : Nat) : Path :=
  p.modifyAt (·.withIndex i) p.wildcardPosition

/-- Behind its end a path is not changed. -/
theorem modifyAt_length (p : Path) (f : Segment → Segment) : p.modifyAt f p.segments.length = p := by
  change (⟨p.head, p.tail.modify p.tail.length f⟩ : Path) = p
  rw [List.modify_eq_self (Nat.le_refl _)]

/-- A wildcard takes every number. -/
theorem forItem_eq (p : Path) (i : Nat) : p.forItem i = .ok (p.numbered i) := by
  by_cases wild : p.hasWildcard = true
  · have lt : p.wildcardPosition < p.segments.length :=
      List.findIdx_lt_length_of_exists (List.any_eq_true.1 wild)
    have here : p.segments[p.wildcardPosition].isWildcard = true := List.findIdx_getElem (w := lt)
    have position : p.segments.findIdx? Segment.isWildcard = some p.wildcardPosition :=
      List.findIdx?_eq_some_of_exists (List.any_eq_true.1 wild)
    rw [forItem, if_pos wild, withVacantIndex, position]
    exact withIndexAt_eq (List.getElem?_eq_getElem lt) (Bool.and_eq_true_iff.1 here).1 i
  · have none : p.wildcardPosition = p.segments.length :=
      List.findIdx_eq_length.2 fun s mem => by
        by_contra here
        exact wild (List.any_eq_true.2 ⟨s, mem, by simpa using here⟩)
    rw [forItem, if_neg wild, numbered, none, modifyAt_length]

/-- A path with exactly one wildcard has it somewhere. -/
theorem exists_wildcardAt (one : p.segments.countP Segment.isWildcard = 1) :
    ∃ front segment rest, p.WildcardAt front segment rest := by
  rw [← p.countP_followed] at one
  obtain ⟨segment, mem, wild⟩ := List.countP_pos_iff.1 (one ▸ Nat.one_pos)
  obtain ⟨front, rest, followed⟩ := List.append_of_mem mem
  rw [followed, List.countP_append, List.countP_cons_of_pos wild] at one
  have before : front.countP Segment.isWildcard = 0 := by omega
  have behind : rest.countP Segment.isWildcard = 0 := by omega
  exact ⟨front, segment, rest, followed, by simpa using List.countP_eq_zero.1 before, wild,
    by simpa using List.countP_eq_zero.1 behind⟩

theorem WildcardAt.mem_segments (wildcard : p.WildcardAt front segment rest) : segment ∈ p.segments :=
  p.followed_subset (by simp [wildcard.followed])

/-- In front of the wildcard there are the segments that are followed, and perhaps a root without brackets. -/
theorem WildcardAt.before_single (wildcard : p.WildcardAt front segment rest) :
    ∀ s ∈ p.segments.take (p.positionAfter front), s.isWildcard = false := by
  have one : p.segments.countP Segment.isWildcard = 1 := by
    rw [← p.countP_followed, wildcard.followed, List.countP_append, List.countP_cons_of_pos wildcard.wild,
      List.countP_eq_zero.2 (by simpa using wildcard.front_single),
      List.countP_eq_zero.2 (by simpa using wildcard.rest_single)]
  rw [← (segments_positionAfter wildcard.followed).1, List.countP_append, List.countP_cons_of_pos wildcard.wild] at one
  have none : (p.segments.take (p.positionAfter front)).countP Segment.isWildcard = 0 := by omega
  exact fun s mem => Bool.eq_false_iff.2 (List.countP_eq_zero.1 none s mem)

theorem WildcardAt.wildcardPosition (wildcard : p.WildcardAt front segment rest) :
    p.wildcardPosition = p.positionAfter front := by
  obtain ⟨-, here, -⟩ := segments_positionAfter wildcard.followed
  obtain ⟨lt, here⟩ := List.getElem?_eq_some_iff.1 here
  refine (List.findIdx_eq lt).2 ⟨by rw [here, wildcard.wild], fun j before => ?_⟩
  exact wildcard.before_single _ (List.mem_take_iff_getElem.2 ⟨j, by omega, rfl⟩)

/-- A number in the brackets of the only wildcard changes nothing else. -/
theorem WildcardAt.segments_numbered (wildcard : p.WildcardAt front segment rest) (i : Nat) :
    (p.numbered i).segments = p.segments.map fun s => if s.isWildcard then s.withIndex i else s := by
  obtain ⟨whole, here, behind⟩ := segments_positionAfter wildcard.followed
  obtain ⟨lt, here⟩ := List.getElem?_eq_some_iff.1 here
  have plain : ∀ l : List Segment, (∀ s ∈ l, s.isWildcard = false) →
      l.map (fun s => if s.isWildcard then s.withIndex i else s) = l := fun l single =>
    (List.map_congr_left fun s mem => by rw [single s mem]; rfl).trans (List.map_id l)
  rw [Path.numbered, segments_modifyAt, wildcard.wildcardPosition, List.modify_eq_take_cons_drop lt, here, behind]
  conv_rhs => rw [← whole, List.map_append, List.map_cons, plain _ wildcard.rest_single, wildcard.wild, if_pos rfl,
    plain _ wildcard.before_single]

/-- A number in the brackets of the only wildcard is a place of a sequence there. -/
theorem WildcardAt.numbered (wildcard : p.WildcardAt front segment rest) (i : Nat) :
    p.withSlotAt (p.positionAfter front) (.index i) = .ok (p.numbered i) := by
  obtain ⟨-, here, -⟩ := segments_positionAfter wildcard.followed
  rw [withSlotAt, withIndexAt_eq here wildcard.brackets, Path.numbered, wildcard.wildcardPosition]

end Path

/-! ## The fields of items -/

/-- Runs that all succeed yield what they yield one by one. -/
theorem mapM_ok {ε α β : Type} {f : α → Except ε β} {h : α → β} {l : List α} (each : ∀ a ∈ l, f a = .ok (h a)) :
    l.mapM f = .ok (l.map h) := by
  induction l with
  | nil => rfl
  | cons a rest ih =>
    rw [List.mapM_cons, each a List.mem_cons_self, ih fun b mem => each b (List.mem_cons_of_mem a mem)]
    rfl

/-- The fields of items: each has the number of its item in the brackets of the wildcard, and as its index. -/
def Field.ofItems (field : Field) (items : List String) : List Field :=
  items.zipIdx.map fun e => field.ofItem (field.path.numbered e.2) e.1 e.2

theorem Field.getElem?_ofItems {field : Field} {items : List String} {i : Nat} {item : String}
    (here : items[i]? = some item) :
    (field.ofItems items)[i]? = some (field.ofItem (field.path.numbered i) item i) := by
  rw [Field.ofItems, List.getElem?_map, List.getElem?_zipIdx, here, Nat.zero_add]
  rfl

theorem Field.exists_of_mem_ofItems {field f : Field} {items : List String} (mem : f ∈ field.ofItems items) :
    ∃ item i, i < items.length ∧ f = field.ofItem (field.path.numbered i) item i := by
  obtain ⟨⟨item, i⟩, here, rfl⟩ := List.mem_map.1 mem
  exact ⟨item, i, (List.getElem?_eq_some_iff.1 (List.mem_zipIdx_iff_getElem?.1 here)).1, rfl⟩

namespace Graph

variable (g : Graph) (options : SeparateOptions) (field : Field)

/-- No path of an item is refused. -/
theorem itemFields_eq : g.itemFields options field =
    .ok ⟨field.path, some (.scalar .string), field.ofItems (g.items options field.value)⟩ := by
  have each : ∀ e ∈ (g.items options field.value).zipIdx, (do
      let path ← field.path.forItem e.2
      return field.ofItem path e.1 e.2 : Except PathError Field) =
        .ok (field.ofItem (field.path.numbered e.2) e.1 e.2) := fun e _ => by
    rw [Path.forItem_eq]
    rfl
  rw [itemFields, mapM_ok each]
  rfl

theorem separateField_eq : g.separateField options field =
    ⟨field.path, some (.scalar .string), field.ofItems (g.items options field.value)⟩ := by
  rw [separateField, itemFields_eq]
  rfl

/-- The items of a text do not depend on the graph. -/
theorem items_string (text : String) :
    g.items options (.scalar (.string text)) = separate options text := by
  rw [items, if_neg (by simp [Value.isNull]), text_scalar]
  rfl

end Graph

/-! ## The ways of items -/

section Ways

variable {field : Field} {front rest : List Segment} {segment : Segment}
  (wildcard : field.path.WildcardAt front segment rest)

include wildcard

/-- The ways of items go through the first places of a sequence, and can be written. -/
theorem Field.ways_ofItems (wellFormed : field.path.WellFormed) (named : ∀ s ∈ field.path.tail, s.name ≠ "")
    (sequence : segment.selector.bracket? ≠ some .entry) (items : List String) :
    (field.ofItems items).map (·.path.accesses) =
        Demand.waysThrough (Path.accessesTo front segment) ((List.range items.length).map .index)
          (rest.flatMap Segment.accesses) ∧
      ∀ f ∈ field.ofItems items, f.path.Writable := by
  have way (i : Nat) :=
    wildcard.writable wellFormed named (fun braces => absurd braces sequence) (wildcard.numbered i)
  constructor
  · rw [Demand.waysThrough, Field.ofItems, List.map_map, List.map_map]
    refine List.ext_getElem (by simp) fun i _ _ => ?_
    simpa [Field.ofItem, Field.template] using (way i).2
  · intro f mem
    obtain ⟨item, i, -, rfl⟩ := Field.exists_of_mem_ofItems mem
    exact (way i).1

/-- There is room for the indexes of these ways if there is room for those of the path, and a word counts the items. -/
theorem Field.roomy_ofItems (roomy : field.path.Roomy) {items : List String} (words : items.length < 2 ^ 64) :
    ∀ f ∈ field.ofItems items, f.path.Roomy := by
  intro f mem
  obtain ⟨item, i, lt, rfl⟩ := Field.exists_of_mem_ofItems mem
  refine wildcard.roomy roomy (fun n index => ?_) (wildcard.numbered i)
  cases index
  omega

end Ways

/-! ## Writing and reading again -/

namespace Registry

variable {template : Field} {position : Nat} {rest : List Segment} {g : Graph} {c : Value}
  {fields fields' : List Field}

/-- The values of a group are those behind the places of its collection. -/
theorem values_eq_of_places
    (each : List.Forall₂ (FieldOf template position rest g) (g.elements c).zipIdx fields')
    (length : (g.places c).length = fields.length)
    (values : ∀ (k : Nat) (field : Field) (slot : Slot), fields[k]? = some field → (g.places c)[k]? = some slot →
      g.look (g.elementAt c slot) (rest.flatMap Segment.accesses) = field.value) :
    fields'.map (·.value) = fields.map (·.value) := by
  obtain ⟨length', each⟩ := FieldOf.getElem? each
  rw [places, List.length_map] at length
  refine List.ext_getElem? fun k => ?_
  rw [List.getElem?_map, List.getElem?_map]
  cases found : fields'[k]? with
  | none =>
    rw [List.getElem?_eq_none_iff, length', length, ← List.getElem?_eq_none_iff] at found
    rw [found]
  | some field' =>
    obtain ⟨slot, v, element, here⟩ := each k field' found
    have lt : k < fields.length := length ▸ (List.getElem?_eq_some_iff.1 element).1
    have field := List.getElem?_eq_getElem lt
    have place : (g.places c)[k]? = some slot := by rw [places, List.getElem?_map, element, Option.map_some]
    rw [field, Option.map_some, Option.map_some, here.value, ← values k _ slot field place,
      elementAt_of_mem_elements (List.mem_of_getElem? element)]

end Registry

namespace Writer

/-- A group of texts at the places of a sequence, with room for the indexes of its paths, is queued and stored as a
whole, without a remark, and whoever reads its path from the new root is given the texts, in order and without a
remark. -/
theorem writeGroup_commit_values (zone : Zone) {w : Writer} (closed : w.graph.Closed)
    (empty : w.root = .null) (idle : w.pending = []) {group : FieldGroup} {texts : List String}
    {front rest : List Segment} {segment : Segment} (wildcard : group.path.WildcardAt front segment rest)
    (values : group.values = texts.map fun s => .scalar (.string s)) (nonempty : texts ≠ [])
    (types : ∀ field ∈ group.fields, field.type = some (.scalar .string))
    (ways : group.fields.map (·.path.accesses) =
      Demand.waysThrough (Path.accessesTo front segment) ((List.range texts.length).map .index)
        (rest.flatMap Segment.accesses))
    (writable : ∀ field ∈ group.fields, field.path.Writable)
    (roomy : ∀ field ∈ group.fields, field.path.Roomy) :
    ∃ w₁ w₂, writeGroup .empty zone group w = (group.fields.length, w₁) ∧
      w₁.pending.map (·.field) = group.fields ∧ w₁.audits = w.audits ∧
      commit .empty zone w₁ = (group.fields.length, w₂) ∧ w₂.pending = [] ∧ w₂.audits = w.audits ∧
      ∀ template : Field, template.path = group.path → ∃ fields,
        (Registry.empty.read template w₂.root).run w₂.graph =
          (.ok (.group ⟨template.path, template.type, fields⟩, []), w₂.graph) ∧
        fields.map (·.value) = group.values := by
  -- the ways go through the places of a list of so many nulls
  let g₀ := (Graph.empty.newSequence .list ⟨.any, List.replicate texts.length .null⟩).2
  have places₀ : g₀.places (.sequence .list 0) = (List.range texts.length).map .index := by
    have items : (g₀.sequence 0).items = List.replicate texts.length .null := rfl
    rw [places_sequence, items, List.length_replicate]
  rw [← places₀] at ways
  have scalar : ∀ field ∈ group.fields, ∃ s, field.value = .scalar (.string s) := by
    intro field mem
    have value : field.value ∈ group.values := List.mem_map_of_mem mem
    rw [values] at value
    obtain ⟨s, -, same⟩ := List.mem_map.1 value
    exact ⟨s, same.symm⟩
  have has : ∀ field ∈ group.fields, w.graph.Has field.value := by
    intro field mem
    obtain ⟨s, value⟩ := scalar field mem
    exact value ▸ trivial
  have typed : ∀ field ∈ group.fields, field.value = .null ∨ field.type = some (w.graph.tagOf field.value) := by
    intro field mem
    obtain ⟨s, value⟩ := scalar field mem
    rw [types field mem, value]
    exact .inr rfl
  obtain ⟨root, g, f, entries, queued, queue, committed, stored, suits, only, -⟩ :=
    writeGroup_commit_stored zone closed empty idle ways writable roomy has typed
  have length : texts.length = group.fields.length := by
    simpa [FieldGroup.values] using (congrArg List.length values).symm
  have some_field : group.fields ≠ [] := fun none =>
    nonempty (List.eq_nil_of_length_eq_zero (by rw [length, none]; rfl))
  obtain ⟨c, leads, places, meant⟩ := places_of_ways stored suits ways only some_field
  -- what the writer has made takes indexes, so it is a sequence
  obtain ⟨kind, id, rfl⟩ : ∃ kind id, c = .sequence kind id := by
    have first : .index 0 ∈ g₀.places (.sequence .list 0) :=
      places₀ ▸ List.mem_map_of_mem (List.mem_range.2 (List.length_pos_iff.2 nonempty))
    obtain ⟨_, kind, id, -, rfl⟩ := (Access.cases_of_meantFor (meant _ first)).resolve_right (by simp)
    exact ⟨kind, id, rfl⟩
  refine ⟨_, _, queued, queue, rfl, committed, idle, rfl, fun template path => ?_⟩
  have at_wildcard : template.path.WildcardAt front segment rest := path ▸ wildcard
  obtain ⟨fields, audits, read, each⟩ := Registry.read_group_look f at_wildcard leads rfl (.inr (by simp))
  have same : fields.map (·.value) = group.values := by
    refine Registry.values_eq_of_places each (by simpa [places, places₀] using length)
      fun k field slot found place => ?_
    have way := congrArg (·[k]?) ways
    simp only [Demand.waysThrough, List.getElem?_map, found, ← places, place, Option.map_some, Option.some.injEq]
      at way
    rw [← look_accesses stored suits ways (List.mem_of_getElem? found), way, look_append, leads, look_slot]
  have silent : audits = [] := by
    refine Registry.read_silent read fun v mem => ?_
    change v ∈ fields.map (·.value) at mem
    rw [same, values] at mem
    obtain ⟨s, -, rfl⟩ := List.mem_map.1 mem
    simp
  exact ⟨fields, silent ▸ read, same⟩

end Writer

end FieldBinding
