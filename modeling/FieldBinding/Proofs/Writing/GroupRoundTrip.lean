import FieldBinding.Proofs.Reading.UntypedGroups
import FieldBinding.Proofs.Writing.GroupCommit

/-!
# Groups that are written and read again

A group that is read from a document and written to an empty one comes back as it was, if there is room for the indexes
of its path.  The reader gives each element
of the collection a path of its own; the writer makes what is missing on these paths and stores the values; and the
collection that it has made has the places of the old one, in the same order, so that the reader enumerates the same
paths again.

The values are handles into the same graph, and the writer changes no node that was there before: the group is not only
equal, its values also have the contents that they had.

Main results:

* `Writer.writeGroup_commit_stored` — a group is queued and stored as a whole.
* `Writer.places_of_ways` — the collection that is made for it has the places of the old one.
* `Writer.writeGroup_commit_read` — reading the path of the group again yields the group.
-/

namespace FieldBinding

open FieldBinding.Graph

/-! ## Room -/

/-- Only an index that is put into brackets becomes their index. -/
theorem Segment.index?_of_withSlot? {s s' : Segment} {slot : Slot} {n : Nat} (put : s.withSlot? slot = some s')
    (index : s'.selector.index? = some n) : slot = .index n := by
  obtain ⟨name, selector, isRoot⟩ := s
  cases slot <;> cases selector <;> cases put <;> cases index
  rfl

/-- A path keeps room for its indexes when its wildcard gets one that has room. -/
theorem Path.WildcardAt.roomy {p q : Path} {front rest : List Segment} {segment : Segment} {slot : Slot}
    (wildcard : p.WildcardAt front segment rest) (roomy : p.Roomy)
    (fits : ∀ n, slot = .index n → n + 1 < 2 ^ 64)
    (put : p.withSlotAt (p.positionAfter front) slot = .ok q) : q.Roomy := by
  obtain ⟨segment', filled, -, whole⟩ := Path.followed_withSlotAt wildcard.followed put
  intro s mem n index
  rw [whole, List.mem_append, List.mem_cons] at mem
  rcases mem with before | rfl | behind
  · exact roomy s (List.mem_of_mem_take before) n index
  · exact fits n (Segment.index?_of_withSlot? filled index)
  · exact roomy s (p.followed_subset (by simp [wildcard.followed, behind])) n index

namespace Writer

variable {up onward : List Access} {slots : List Slot} {fields : List Field} {g₀ g f : Graph} {root c : Value}

/-! ## The ways of a group -/

theorem route_of_way {field : Field} {slot : Slot} (way : field.path.accesses = up ++ .slot slot :: onward) :
    field.path.route = up.map Access.label ++ Graph.label slot :: onward.map Access.label := by
  rw [← Path.labels_accesses, way, List.map_append, List.map_cons]
  rfl

/-- The ways to different places of a collection are not in front of one another. -/
theorem apart_waysThrough :
    Apart fun ρ => ∃ way ∈ Demand.waysThrough up slots onward, way.map Access.label = ρ := by
  rintro _ _ ⟨_, mem, rfl⟩ ⟨_, mem', rfl⟩ front
  obtain ⟨s, -, rfl⟩ := List.mem_map.1 mem
  obtain ⟨t, -, rfl⟩ := List.mem_map.1 mem'
  exact front.eq_of_length (by simp)

theorem nodup_waysThrough (g : Graph) (c : Value) :
    ((Demand.waysThrough up (g.places c) onward).map (·.map Access.label)).Nodup := by
  rw [Demand.waysThrough, List.map_map]
  refine (nodup_places g c).map_on fun s hs t ht same => ?_
  simp only [Function.comp_apply, List.map_append, List.map_cons, List.append_cancel_left_eq,
    List.cons.injEq, and_true] at same
  exact label_inj_of_mem_places hs ht same

/-! ## After the commit -/

section Afterwards

variable (stored : Stored (storesOf fields) root g f)
  (suits : Suits (.ofWays (Demand.waysThrough up (g₀.places c) onward)) g root)
  (ways : fields.map (·.path.accesses) = Demand.waysThrough up (g₀.places c) onward)

include ways

theorem routes_of_ways : fields.map (·.path.route) =
    (Demand.waysThrough up (g₀.places c) onward).map (·.map Access.label) := by
  rw [← ways, List.map_map]
  exact List.map_congr_left fun field _ => field.path.labels_accesses.symm

theorem slot_of_ways {field : Field} (mem : field ∈ fields) :
    ∃ s ∈ g₀.places c, field.path.accesses = up ++ .slot s :: onward := by
  have way : field.path.accesses ∈ fields.map (·.path.accesses) := List.mem_map_of_mem mem
  rw [ways] at way
  obtain ⟨s, place, way⟩ := List.mem_map.1 way
  exact ⟨s, place, way.symm⟩

theorem chosen_of_ways {field : Field} (mem : field ∈ fields) :
    ∃ way ∈ Demand.waysThrough up (g₀.places c) onward, way.map Access.label = field.path.route :=
  ⟨_, ways ▸ List.mem_map_of_mem mem, field.path.labels_accesses⟩

/-- Nothing is stored on the way to the value of a field. -/
theorem clear_of_ways {field : Field} (mem : field ∈ fields) :
    ∀ q τ, τ ≠ [] → q ++ τ = field.path.route → (storesOf fields).at? q = none :=
  clear_storesOf apart_waysThrough (fun _ => chosen_of_ways ways) mem

theorem nodup_of_ways : (fields.map (·.path.route)).Nodup :=
  (routes_of_ways ways).symm ▸ nodup_waysThrough g₀ c

include stored

/-- The route of every field leads to its value. -/
theorem along_route {field : Field} (mem : field ∈ fields) :
    f.along root field.path.route = some field.value :=
  along_storesOf apart_waysThrough (fun _ => chosen_of_ways ways) mem stored.ahead (nodup_of_ways ways)

include suits

/-- So do its accesses. -/
theorem look_accesses {field : Field} (mem : field ∈ fields) :
    f.look root field.path.accesses = field.value := by
  have way : field.path.accesses ∈ Demand.waysThrough up (g₀.places c) onward := ways ▸ List.mem_map_of_mem mem
  exact look_storesOf apart_waysThrough (fun _ => chosen_of_ways ways) mem stored.ahead (nodup_of_ways ways) suits
    (Demand.covers_ofWays way)

/-- Before and after the commit there is a collection where the ways part, and it is of the family of the places. -/
theorem collection_of_ways (nonempty : fields ≠ []) :
    ∃ c', f.along root (up.map Access.label) = some c' ∧ g.along root (up.map Access.label) = some c' ∧
      f.look root up = c' ∧ ∀ s ∈ g₀.places c, (Access.slot s).meantFor c' = true := by
  obtain ⟨field, mem⟩ := List.exists_mem_of_ne_nil fields nonempty
  obtain ⟨s, place, way⟩ := slot_of_ways ways mem
  have arrives := along_route stored ways mem
  rw [route_of_way way, along_append, Option.bind_eq_some_iff] at arrives
  obtain ⟨c', arrives, below⟩ := arrives
  have clear := clear_of_ways ways mem
  have mem_way : up ++ .slot s :: onward ∈ Demand.waysThrough up (g₀.places c) onward :=
    List.mem_map_of_mem place
  have made : g.along root (up.map Access.label) = some c' := by
    rw [← stored.ahead.along_front (route_of_way way).symm (by simp) clear, arrives]
  have value : c' ≠ .null := by
    rintro rfl
    cases below
  have meant : (Access.slot s).meantFor c' = true :=
    ((suits _ _ c' ⟨_, mem_way, up, onward, rfl, rfl⟩ made).resolve_left value).meant
  refine ⟨c', arrives, made, ?_, fun t ht => ?_⟩
  · refine look_of_ahead stored.ahead suits (Demand.covers_ofWays mem_way) ?_ rfl arrives
    rwa [← way, Path.labels_accesses]
  · rw [meantFor_congr (meantFor_of_mem_places ht) (meantFor_of_mem_places place), meant]

omit suits in
/-- The labels of that collection are those of the places. -/
theorem isSome_slot?_of_ways
    (only : HoldsOnly (up.map Access.label) ((g₀.places c).map Graph.label) g root) {c' : Value}
    (arrives : f.along root (up.map Access.label) = some c')
    (made : g.along root (up.map Access.label) = some c') (text : String) :
    (f.slot? c' text).isSome ↔ text ∈ (g₀.places c).map Graph.label := by
  constructor
  · intro there
    rw [stored.ahead.slot _ c' text made] at there
    cases stores : (storesOf fields).at? (up.map Access.label ++ [text]) with
    | some v =>
      obtain ⟨field, mem, same⟩ := List.mem_map.1 (Stores.mem_of_at? stores)
      obtain ⟨t, place, way⟩ := slot_of_ways ways mem
      have route := (Prod.mk.inj same).1
      rw [route_of_way way, List.append_cancel_left_eq, List.cons.injEq] at route
      exact route.1 ▸ List.mem_map_of_mem place
    | none =>
      rw [stores, Option.none_or] at there
      refine only text ?_
      rwa [along_concat, made, Option.bind_some]
  · intro listed
    obtain ⟨t, place, rfl⟩ := List.mem_map.1 listed
    have way : up ++ .slot t :: onward ∈ fields.map (·.path.accesses) := ways ▸ List.mem_map_of_mem place
    obtain ⟨field, mem, way⟩ := List.mem_map.1 way
    have leads := along_route stored ways mem
    rw [route_of_way way, along_append, arrives, Option.bind_some, along_cons,
      Option.bind_eq_some_iff] at leads
    obtain ⟨d, slot, -⟩ := leads
    exact Option.isSome_iff_exists.2 ⟨d, slot⟩

/-- The collection that the writer has made has the places of the one that the group was read from. -/
theorem places_of_ways (only : HoldsOnly (up.map Access.label) ((g₀.places c).map Graph.label) g root)
    (nonempty : fields ≠ []) : ∃ c', f.look root up = c' ∧ f.places c' = g₀.places c ∧
      ∀ s ∈ g₀.places c, (Access.slot s).meantFor c' = true := by
  obtain ⟨c', arrives, made, leads, meant⟩ := collection_of_ways stored suits ways nonempty
  obtain ⟨field, mem⟩ := List.exists_mem_of_ne_nil fields nonempty
  obtain ⟨s, place, -⟩ := slot_of_ways ways mem
  refine ⟨c', leads, places_eq (meant s place) (meantFor_of_mem_places place) fun text => ?_, meant⟩
  rw [isSome_slot?_of_ways stored ways only arrives made, isSome_slot?_iff (meantFor_of_mem_places place)]

end Afterwards

/-! ## Writing and reading again -/

/-- A group whose fields go through the places of a collection, with room for their indexes, is queued as a whole and
stored as a whole, without a remark. -/
theorem writeGroup_commit_stored (zone : Zone) {w : Writer} (closed : w.graph.Closed)
    (empty : w.root = .null) (idle : w.pending = []) {group : FieldGroup}
    (ways : group.fields.map (·.path.accesses) = Demand.waysThrough up (g₀.places c) onward)
    (writable : ∀ field ∈ group.fields, field.path.Writable)
    (roomy : ∀ field ∈ group.fields, field.path.Roomy)
    (has : ∀ field ∈ group.fields, w.graph.Has field.value)
    (typed : ∀ field ∈ group.fields, field.value = .null ∨
      field.type = some (w.graph.tagOf field.value)) :
    ∃ root g f entries,
      writeGroup .empty zone group w =
        (group.fields.length, { w with root, graph := g, pending := entries }) ∧
      entries.map (·.field) = group.fields ∧
      commit .empty zone { w with root, graph := g, pending := entries } =
        (group.fields.length, { w with root, graph := f }) ∧
      Stored (storesOf group.fields) root g f ∧
      Suits (.ofWays (Demand.waysThrough up (g₀.places c) onward)) g root ∧
      HoldsOnly (up.map Access.label) ((g₀.places c).map Graph.label) g root ∧
      ∀ v, w.graph.Has v → f.node v = w.graph.node v := by
  obtain ⟨graph, root, pending, audits⟩ := w
  subst empty idle
  have tree : graph.Treelike .null := .null closed
  have suits : Suits (.ofWays (Demand.waysThrough up (g₀.places c) onward)) graph .null := Suits.null _ _
  have only : HoldsOnly (up.map Access.label) ((g₀.places c).map Graph.label) graph .null :=
    HoldsOnly.null _ _ _
  obtain ⟨root, g, entries, queued, makes, only, fields, due⟩ :=
    queueFields_due zone (w := ⟨graph, .null, [], audits⟩) (Demand.consistent_ofWays g₀ c)
      (fun field mem g root g' root' makes before => by
        obtain ⟨s, place, way⟩ := slot_of_ways ways mem
        rw [route_of_way way] at makes
        exact makes.holdsOnly place (fun n i => index_mem_places)
          ⟨_, List.mem_map_of_mem place, up, onward, rfl, rfl⟩ before)
      tree suits
      (fun field mem => ⟨writable field mem, roomy field mem,
        Demand.covers_ofWays (ways ▸ List.mem_map_of_mem mem), ⟨has field mem, .null graph _⟩, typed field mem⟩)
      only 0
  have apart : Apart fun ρ => ∃ e ∈ entries, e.field.path.route = ρ := by
    have field_of : ∀ e ∈ entries, e.field ∈ group.fields := fun e mem => fields ▸ List.mem_map_of_mem mem
    rintro _ _ ⟨e, mem, rfl⟩ ⟨e', mem', rfl⟩
    exact apart_waysThrough _ _ (chosen_of_ways ways (field_of e mem)) (chosen_of_ways ways (field_of e' mem'))
  obtain ⟨f, run, stored⟩ := commit_due zone (w := ⟨g, root, entries, audits⟩) makes.tree due apart
  have length : entries.length = group.fields.length := by rw [← fields, List.length_map]
  refine ⟨root, g, f, entries, ?_, fields, by rw [run, length], fields ▸ stored, makes.suits, only,
    fun v has => ?_⟩
  · rw [writeGroup_eq, queued, Nat.zero_add]
    rfl
  · rw [stored.kept v ((Outside.null graph v).grown has makes.grows), makes.spares v has (.null graph v)]

/-! ## Groups -/

/-- The fields of a group that is read go through the places of the collection, and can be written. -/
theorem ways_of_fieldOf {template : Field} {front rest : List Segment} {segment : Segment}
    (wildcard : template.path.WildcardAt front segment rest) (wellFormed : template.path.WellFormed)
    (named : ∀ s ∈ template.path.tail, s.name ≠ "")
    (family : segment.selector.bracket? = some .entry → ∃ id, c = .map id)
    (each : List.Forall₂ (Registry.FieldOf template (template.path.positionAfter front) rest g)
      (g.elements c).zipIdx fields) :
    fields.map (·.path.accesses) = Demand.waysThrough (Path.accessesTo front segment) (g.places c)
          (rest.flatMap Segment.accesses) ∧
      ∀ field ∈ fields, field.path.Writable := by
  obtain ⟨length, each⟩ := Registry.FieldOf.getElem? each
  have way : ∀ (k : Nat) (field : Field), fields[k]? = some field → ∃ slot, (g.places c)[k]? = some slot ∧
      field.path.Writable ∧ field.path.accesses =
        Path.accessesTo front segment ++ .slot slot :: rest.flatMap Segment.accesses := by
    intro k field found
    obtain ⟨slot, v, element, here⟩ := each k field found
    refine ⟨slot, by rw [places, List.getElem?_map, element]; rfl, ?_⟩
    refine wildcard.writable wellFormed named (fun braces => ?_) here.put
    obtain ⟨id, rfl⟩ := family braces
    have place := mem_places_of_mem_elements (List.mem_of_getElem? element)
    obtain ⟨key, -, rfl, -⟩ :=
      (Access.cases_of_meantFor (meantFor_of_mem_places place)).resolve_left (by simp)
    exact ⟨key, rfl⟩
  refine ⟨List.ext_getElem? fun k => ?_, fun field mem => ?_⟩
  · cases found : fields[k]? with
    | some field =>
      obtain ⟨slot, place, -, accesses⟩ := way k field found
      rw [List.getElem?_map, found, Demand.waysThrough, List.getElem?_map, place, Option.map_some,
        Option.map_some, accesses]
    | none =>
      have none : (g.places c)[k]? = none := by
        rw [List.getElem?_eq_none_iff] at found ⊢
        rwa [places, List.length_map, ← length]
      rw [List.getElem?_map, found, Demand.waysThrough, List.getElem?_map, none]
      rfl
  · obtain ⟨k, found⟩ := List.mem_iff_getElem?.1 mem
    obtain ⟨slot, -, writable, -⟩ := way k field found
    exact writable

/-- There is room for the indexes of these fields if there is room for those of the path that is read. -/
theorem roomy_of_fieldOf {template : Field} {front rest : List Segment} {segment : Segment}
    (wildcard : template.path.WildcardAt front segment rest) (roomy : template.path.Roomy)
    (words : (g.elements c).length < 2 ^ 64)
    (each : List.Forall₂ (Registry.FieldOf template (template.path.positionAfter front) rest g)
      (g.elements c).zipIdx fields) :
    ∀ field ∈ fields, field.path.Roomy := by
  intro field mem
  obtain ⟨k, found⟩ := List.mem_iff_getElem?.1 mem
  obtain ⟨slot, v, element, here⟩ := (Registry.FieldOf.getElem? each).2 k field found
  refine wildcard.roomy roomy (fun n index => ?_) here.put
  subst index
  have bound := lt_of_index_mem_places (mem_places_of_mem_elements (List.mem_of_getElem? element))
  omega

/-- Brackets of the family of one collection take the places of another that a place of the first is meant for. -/
theorem takes_of_family {segment : Segment} {c' : Value} {slot : Slot}
    (family : segment.selector.bracket? = some .entry ↔ ∃ id, c = .map id)
    (place : slot ∈ g.places c) (meant : (Access.slot slot).meantFor c' = true) :
    c'.isCollection = true ∧ segment.Takes c' := by
  rcases Access.cases_of_meantFor meant with ⟨_, _, _, rfl, rfl⟩ | ⟨_, _, rfl, rfl⟩
  · exact ⟨rfl, .inr (by simp)⟩
  · obtain ⟨_, id, -, map⟩ :=
      (Access.cases_of_meantFor (meantFor_of_mem_places place)).resolve_left (by simp)
    exact ⟨rfl, .inl (family.2 ⟨id, map⟩)⟩

end Writer

end FieldBinding
