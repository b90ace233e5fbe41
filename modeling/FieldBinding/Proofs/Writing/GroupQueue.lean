import FieldBinding.Proofs.Graph.Places
import FieldBinding.Proofs.Reading.Filling
import FieldBinding.Proofs.Writing.Suits

/-!
# Queueing a group

The fields of a group go the same way up to the collection under the wildcard, through a place of it that is their own,
and the same way on.  What these ways ask of a document does not contradict itself, so a document that suits them all
goes on suiting while one field after another is prepared: every field is queued, and none leaves a remark.

A value that is queued with its own type is not converted.  It waits for the commit in a place of the graph that the
document does not reach.

Main results:

* `Writer.write_due` — a field can be queued in a document that suits its path.
* `Writer.queueFields_due` — so can many.
* `Writer.Makes.holdsOnly` — at the collection a document gets the places of the group and no others.
-/

namespace FieldBinding

open FieldBinding.Graph

/-! ## What a group asks -/

namespace Demand

/-- What some ways from the root ask of the places that they come through. -/
def ofWays (ways : List (List Access)) : Demand := fun σ a =>
  ∃ way ∈ ways, ∃ front back, way = front ++ a :: back ∧ σ = front.map Access.label

variable {ways : List (List Access)} {way up onward : List Access}

theorem covers_ofWays (mem : way ∈ ways) : (ofWays ways).Covers [] way :=
  fun front _ back eq => ⟨way, mem, front, back, eq, rfl⟩

/-- The ways through some places, the same before and behind them. -/
def waysThrough (up : List Access) (slots : List Slot) (onward : List Access) : List (List Access) :=
  slots.map fun slot => up ++ .slot slot :: onward

/-- The ways through the places of a collection do not ask for different things. -/
theorem consistent_ofWays (g : Graph) (c : Value) : (ofWays (waysThrough up (g.places c) onward)).Consistent := by
  rintro σ a b ⟨way, mem, front, back, eq, rfl⟩ ⟨way', mem', front', back', eq', same⟩
  obtain ⟨s, hs, rfl⟩ := List.mem_map.1 mem
  obtain ⟨t, ht, rfl⟩ := List.mem_map.1 mem'
  have length : front'.length = front.length := by simpa using (congrArg List.length same).symm
  have here : (up ++ .slot s :: onward)[front.length]? = some a := by rw [eq]; simp
  have here' : (up ++ .slot t :: onward)[front.length]? = some b := by rw [eq', ← length]; simp
  rw [List.getElem?_append] at here here'
  split at here
  · next before =>
    rw [if_pos before, here, Option.some.injEq] at here'
    rw [here']
  · next behind =>
    rw [if_neg behind] at here'
    cases at_place : front.length - up.length with
    | zero =>
      rw [at_place] at here here'
      obtain rfl := Option.some.inj here
      obtain rfl := Option.some.inj here'
      exact meantFor_congr (meantFor_of_mem_places hs) (meantFor_of_mem_places ht)
    | succ n =>
      rw [at_place, List.getElem?_cons_succ] at here here'
      rw [here, Option.some.injEq] at here'
      rw [here']

end Demand

/-- The last access of a path that can be written is that of the place where its value is stored. -/
theorem Path.Writable.accesses_eq {p : Path} (writable : p.Writable) :
    ∃ front a, p.accesses = front ++ [a] ∧ front.map Access.label = p.holderRoute ∧
      (∀ v, Writer.accepts v p.last = a.opens v) ∧ ∀ slot, a = .slot slot → p.last.selector.slot? = some slot := by
  have owner : (p.followed.dropLast.flatMap Segment.accesses).map Access.label = p.ownerRoute := by
    rw [ownerRoute, List.map_flatMap]
    exact List.flatMap_congr fun s _ => s.labels_accesses
  have whole : p.accesses = p.followed.dropLast.flatMap Segment.accesses ++ p.last.accesses := by
    rw [accesses, ← getLast_followed writable.nonempty]
    conv_lhs => rw [← List.dropLast_concat_getLast writable.nonempty]
    simp
  have names : (p.last.names.map Access.name).map Access.label = p.last.names := by
    rw [List.map_map]
    exact List.map_id _
  by_cases collection : p.last.isCollection
  · obtain ⟨slot, hslot⟩ := Writer.slot?_of_single collection (last_single writable.single)
    refine ⟨p.followed.dropLast.flatMap Segment.accesses ++ p.last.names.map .name, .slot slot, ?_, ?_,
      fun v => ?_, fun _ same => by cases same; exact hslot⟩
    · rw [whole, Segment.accesses, hslot]
      simp
    · rw [List.map_append, owner, names, holderRoute, if_pos collection]
    · rw [Writer.accepts, hslot]
      rfl
  have plain : p.last.isCollection = false := by simpa using collection
  have below : p.tail ≠ [] := by
    intro none
    have head : p.head.isCollection := by
      by_contra brackets
      exact writable.nonempty ((Path.followed_of_plain brackets).trans none)
    rw [Path.last, none, List.getLastD_nil] at plain
    rw [plain] at head
    cases head
  have named := writable.named _ (last_mem_tail below)
  refine ⟨p.followed.dropLast.flatMap Segment.accesses, .name p.last.name, ?_, ?_, fun v => ?_,
    fun _ same => by cases same⟩
  · rw [whole, Segment.accesses, Segment.names_of_ne named, Writer.slot?_eq_none plain]
    rfl
  · rw [owner, holderRoute, if_neg collection, List.append_nil]
  · rw [Writer.accepts, Writer.slot?_eq_none plain]
    rfl

namespace Writer

variable {demand : Demand} {g g' : Graph} {root root' : Value}

/-! ## Values with their own type -/

theorem convertTo_tagOf (g : Graph) (zone : Zone) (v : Value) :
    g.convertTo zone v (g.tagOf v) = .ok v := by
  unfold Graph.convertTo
  cases type : (g.tagOf v).fieldType with
  | scalar kind =>
    obtain ⟨s, rfl, same⟩ := eq_scalar_of_fieldTypeOf type
    exact convert_of_kind g zone same
  | _ => rfl

/-- Null, and a value for a place of its own type, is not converted. -/
theorem coerce_exact {zone : Zone} {field : Field} {target : Option TypeTag} {w : Writer}
    (exact_ : field.value = .null ∨ target = some (w.graph.tagOf field.value)) :
    coerce zone field target w = (field.value, w) := by
  unfold coerce
  simp only [Running.state_bind, Running.state_get]
  cases target with
  | none => rfl
  | some tag =>
    have same : w.graph.convertTo zone field.value tag = .ok field.value := by
      rcases exact_ with null | type
      · rw [null, Graph.convertTo_null]
      · rw [Option.some.inj type, convertTo_tagOf]
    simp only [same]
    rfl

/-! ## Fields and entries that meet no obstacle -/

/-- A value that is in no place of a document. -/
structure Spare (g : Graph) (root v : Value) : Prop where
  has : g.Has v
  outside : g.Outside root v

/-- A field that can be queued in a document which suits: its path can be written, with room for its indexes, and asks
for no more than it should, and its value is in no place of the document and has the type of the field. -/
structure Suited (demand : Demand) (g : Graph) (root : Value) (field : Field) : Prop where
  writable : field.path.Writable
  roomy : field.path.Roomy
  covered : demand.Covers [] field.path.accesses
  spare : Spare g root field.value
  typed : field.value = .null ∨ field.type = some (g.tagOf field.value)

/-- An entry of the queue that will be stored as it is. -/
structure Due (g : Graph) (root : Value) (e : PendingWrite) : Prop where
  waits : Waits g root e
  writable : e.field.path.Writable
  taken : accepted g root e.field.path = true
  spare : Spare g root e.field.value
  typed : e.field.value = .null ∨ e.target = some (g.tagOf e.field.value)

namespace Makes

variable {ρ : List String} (makes : Makes demand ρ g root g' root')

include makes

/-- What is made on a route is made somewhere. -/
theorem anywhere : Makes demand [] g root g' root' :=
  { makes with frames := makes.frames.front (ρ := []) }

theorem spare {v : Value} (spare : Spare g root v) : Spare g' root' v ∧ g'.tagOf v = g.tagOf v :=
  ⟨⟨makes.grows.has v spare.has, spare.outside.grown spare.has makes.grows⟩,
    tagOf_congr (congrArg Node.kind (makes.spares v spare.has spare.outside))⟩

theorem suited {field : Field} (suited : Suited demand g root field) : Suited demand g' root' field := by
  obtain ⟨spare, type⟩ := makes.spare suited.spare
  exact { suited with spare, typed := type ▸ suited.typed }

theorem due {e : PendingWrite} (due : Due g root e) : Due g' root' e := by
  obtain ⟨spare, type⟩ := makes.spare due.spare
  refine ⟨due.waits.grown makes.grows, due.writable, ?_, spare, type ▸ due.typed⟩
  rw [accepted_grown due.waits.standing makes.grows, due.taken]

end Makes

/-- A path that is prepared in a document which suits it finds a value that takes what is stored. -/
theorem Waits.accepted {e : PendingWrite} (waits : Waits g root e) (writable : e.field.path.Writable)
    (suits : Suits demand g root) (covers : demand.Covers [] e.field.path.accesses) :
    accepted g root e.field.path = true := by
  obtain ⟨front, a, accesses, holder, accepts, -⟩ := writable.accesses_eq
  obtain ⟨v, arrives, value, -⟩ := waits.standing
  have asked := covers front a [] accesses
  rw [List.nil_append, holder] at asked
  rw [Writer.accepted, arrives, Option.any_some, accepts]
  exact ((suits _ a v asked arrives).resolve_left value).opens

/-! ## One field -/

/-- A field can be queued in a document that suits its path. -/
theorem write_due (zone : Zone) {w : Writer} (tree : w.graph.Treelike w.root) (suits : Suits demand w.graph w.root)
    (consistent : demand.Consistent) {field : Field} (suited : Suited demand w.graph w.root field) :
    ∃ owner target root g, (write .empty zone field).run w = (.ok ⟨⟩, { w with
        root, graph := g, pending := w.pending ++ [⟨field, owner, target⟩] }) ∧
      Makes demand field.path.route w.graph w.root g root ∧ Due g root ⟨field, owner, target⟩ := by
  obtain ⟨wellFormed, single, nonempty, named⟩ := suited.writable
  obtain ⟨owner, root, g, run, makes, value, prepared⟩ :=
    prepare_completes wellFormed single suited.roomy named nonempty tree suits consistent suited.covered
  have suited' := makes.suited suited
  obtain ⟨target, found, typed⟩ : ∃ target,
      (targetOf .empty root field owner
        (if field.value.isNull then none else some (g.tagOf field.value))).run g = (.ok target, g) ∧
      (field.value = .null ∨ target = some (g.tagOf field.value)) := by
    rcases suited'.typed with null | type
    · obtain ⟨target, found, -⟩ := targetOf_alongside (.refl makes.tree) prepared single
        (fun _ _ _ _ => rfl) (if field.value.isNull then none else some (g.tagOf field.value))
      exact ⟨target, found, .inl null⟩
    · refine ⟨_, ?_, .inr rfl⟩
      unfold targetOf
      rw [type]
      rfl
  refine ⟨owner, target, root, g, ?_, makes, ?_⟩
  · have coerced : coerce zone field target { w with root, graph := g } =
        (field.value, { w with root, graph := g }) := coerce_exact typed
    have queued := populate_of_coerce (w := { w with root, graph := g }) found coerced
    simp only [write, Running.run_bind, run, queued]
  · have waits : Waits g root ⟨field, owner, target⟩ := prepared.waits wellFormed single value rfl rfl
    exact ⟨waits, suited.writable, waits.accepted suited.writable makes.suits suited.covered,
      suited'.spare, typed⟩

/-! ## Many fields -/

/-- Queues a field of a group and counts it. -/
def queueField (r : Registry) (zone : Zone) (queued : Nat) (field : Field) :
    StateM Writer Nat := do
  match ← (write r zone field).run with
  | .ok () => return queued + 1
  | .error e =>
    remark (failure field e)
    return queued

theorem writeGroup_eq (r : Registry) (zone : Zone) (group : FieldGroup) :
    writeGroup r zone group = group.fields.foldlM (queueField r zone) 0 := rfl

/-- Many fields can be queued in a document that suits them.  What each of them leaves as it was, all of them do. -/
theorem queueFields_due (zone : Zone) {P : Graph → Value → Prop} {fields : List Field}
    (consistent : demand.Consistent)
    (keeps : ∀ field ∈ fields, ∀ g root g' root', Makes demand field.path.route g root g' root' →
      P g root → P g' root')
    {w : Writer} (tree : w.graph.Treelike w.root) (suits : Suits demand w.graph w.root)
    (suited : ∀ field ∈ fields, Suited demand w.graph w.root field) (start : P w.graph w.root) (k : Nat) :
    ∃ root g entries, fields.foldlM (queueField .empty zone) k w = (k + fields.length, { w with
        root, graph := g, pending := w.pending ++ entries }) ∧
      Makes demand [] w.graph w.root g root ∧ P g root ∧ entries.map (·.field) = fields ∧
      ∀ e ∈ entries, Due g root e := by
  induction fields generalizing w k with
  | nil => exact ⟨w.root, w.graph, [], by simp, .refl [] tree suits, start, rfl, by simp⟩
  | cons field rest ih =>
    obtain ⟨owner, target, root₁, g₁, run₁, makes₁, due₁⟩ :=
      write_due zone tree suits consistent (suited field List.mem_cons_self)
    have start₁ := keeps field List.mem_cons_self _ _ _ _ makes₁ start
    obtain ⟨root₂, g₂, entries, run₂, makes₂, after, fields_eq, due₂⟩ :=
      ih (fun f hf => keeps f (List.mem_cons_of_mem _ hf))
        (w := { w with root := root₁, graph := g₁, pending := w.pending ++ [⟨field, owner, target⟩] })
        makes₁.tree makes₁.suits
        (fun f hf => makes₁.suited (suited f (List.mem_cons_of_mem _ hf))) start₁ (k + 1)
    refine ⟨root₂, g₂, ⟨field, owner, target⟩ :: entries, ?_, makes₁.anywhere.trans makes₂, after,
      by rw [List.map_cons, fields_eq], ?_⟩
    · have step : queueField .empty zone k field w = (k + 1, { w with
          root := root₁, graph := g₁, pending := w.pending ++ [⟨field, owner, target⟩] }) := by
        simp only [queueField, Running.state_bind, run₁]
        rfl
      rw [List.foldlM_cons, Running.state_bind, step, run₂]
      simp [Nat.add_assoc, Nat.add_comm 1]
    · simpa using ⟨makes₂.due due₁, due₂⟩

/-! ## The places of a group -/

/-- A place of a document has no labels but some. -/
def HoldsOnly (κ labels : List String) (g : Graph) (root : Value) : Prop :=
  ∀ label, (g.along root (κ ++ [label])).isSome → label ∈ labels

theorem HoldsOnly.null (κ labels : List String) (g : Graph) : HoldsOnly κ labels g .null := by
  intro label there
  cases κ <;> cases there

/-- Making a place of a collection makes no other, but for the indexes in front of it. -/
theorem Makes.holdsOnly {κ τ : List String} {slots : List Slot} {slot : Slot}
    (makes : Makes demand (κ ++ Graph.label slot :: τ) g root g' root') (mem : slot ∈ slots)
    (full : ∀ n i, .index n ∈ slots → i < n → .index i ∈ slots) (asked : demand κ (.slot slot))
    (before : HoldsOnly κ (slots.map Graph.label) g root) :
    HoldsOnly κ (slots.map Graph.label) g' root' := by
  intro label there
  by_cases here : label = Graph.label slot
  · exact here ▸ List.mem_map_of_mem mem
  have parted : Parted (κ ++ [label]) (κ ++ Graph.label slot :: τ) := by
    constructor <;> intro front <;> rw [List.prefix_append_right_inj, List.cons_prefix_cons] at front
    · exact here front.1
    · exact here front.1.symm
  rcases makes.frames.off _ parted with same | ⟨-, -, α, i, n, β, kind, id, place, route, lt, arrives⟩
  · exact before label (same ▸ there)
  -- a null in front of the index that the sequence has been made long enough for
  obtain ⟨rfl, same⟩ := List.append_inj' place rfl
  obtain ⟨same', -⟩ := List.cons.inj (List.append_cancel_left route)
  obtain rfl := List.cons.inj same |>.1
  have hosts := (makes.suits κ _ _ asked arrives).resolve_left (by simp)
  obtain ⟨m, -, -, rfl, -⟩ := (Access.cases_of_meantFor hosts.meant).resolve_right (by simp)
  obtain rfl := Numeral.text_injective same'
  exact List.mem_map_of_mem (f := Graph.label) (full m i mem lt)

end Writer

end FieldBinding
