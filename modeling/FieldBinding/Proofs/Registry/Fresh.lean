import FieldBinding.Proofs.Registry.Ancestry
import FieldBinding.Proofs.Registry.Standalone

/-!
# What new objects hold

A new object is made from the description of its type alone: it has the members that the type itself declares, each
with its initial value.  Whoever looks a member up goes through the whole lineage.  The two agree on the members of
the type itself, however often they have been declared anew.  A member that only an ancestor declares is found, but
a new object has no such member, and shows null in its place even where null is not allowed.

Main results:

* `Descriptor.Built.nodup` — a type that is built has one member of a name.
* `Descriptor.get?_defaultObject` — what a new object holds.
* `Registry.instantiate_zero` — which primitive members of a new object are zero.
-/

namespace FieldBinding

namespace Descriptor

variable {d : Descriptor}

/-- A type that is described step by step.  Members, getters and setters may be declared in any order and as often as
one likes. -/
inductive Built : Descriptor → Prop where
  | header (name : String) (ancestors : List String) (isAbstract : Bool) (blueprint : Option Blueprint) :
      Built ⟨name, ancestors, isAbstract, blueprint, [], .empty, .empty⟩
  | member {d : Descriptor} (built : Built d) (name : String) (declared : TypeTag) :
      Built (d.addMember name declared)
  | getter {d : Descriptor} (built : Built d) (g : Getter) : Built (d.addGetter g)
  | setter {d : Descriptor} (built : Built d) (s : Setter) : Built (d.addSetter s)
  | field {d : Descriptor} (built : Built d) (name : String) (declared : TypeTag) :
      Built (d.addField name declared)

/-- A member that is declared anew takes the place of the old one. -/
theorem nodup_addMember (distinct : (d.members.map (·.name)).Nodup) (name : String) (declared : TypeTag) :
    ((d.addMember name declared).members.map (·.name)).Nodup := by
  simp only [addMember, List.map_append, List.map_cons, List.map_nil]
  refine List.nodup_append.2 ⟨distinct.sublist (List.filter_sublist.map _), List.nodup_singleton name, ?_⟩
  intro other mem last same
  obtain ⟨m, kept, rfl⟩ := List.mem_map.1 mem
  rw [List.mem_singleton] at same
  subst same
  simpa using (List.mem_filter.1 kept).2

/-- A type that is built has one member of a name. -/
theorem Built.nodup (built : d.Built) : (d.members.map (·.name)).Nodup := by
  induction built with
  | header => exact List.nodup_nil
  | member _ name declared ih => exact nodup_addMember ih name declared
  | getter _ _ ih => exact ih
  | setter _ _ ih => exact ih
  | field _ name declared ih => exact nodup_addMember ih name declared

/-- A new object holds the initial values of the members that its type declares, and nothing else. -/
theorem get?_defaultObject (distinct : (d.members.map (·.name)).Nodup) (name : String) :
    d.defaultObject.members.get? name = (d.member? name).map fun m => initial m.declared := by
  have held : ∀ v, d.defaultObject.members.get? name = some v →
      ∃ m ∈ d.members, m.name = name ∧ initial m.declared = v := by
    intro v found
    obtain ⟨m, mem, same⟩ := List.mem_map.1 (Entries.mem_ofList (Entries.mem_of_get? found))
    exact ⟨m, mem, (Prod.mk.inj same).1, (Prod.mk.inj same).2⟩
  cases own : d.member? name with
  | none =>
    refine Option.eq_none_iff_forall_ne_some.2 fun v found => ?_
    obtain ⟨m, mem, named, -⟩ := held v found
    simpa [named] using List.find?_eq_none.1 own m mem
  | some m =>
    have mem := List.mem_of_find?_eq_some own
    obtain rfl : m.name = name := by simpa using List.find?_some own
    have listed : (m.name, initial m.declared) ∈ d.members.map fun m => (m.name, initial m.declared) :=
      List.mem_map_of_mem mem
    obtain ⟨v, found⟩ := Option.isSome_iff_exists.1 (Entries.isSome_get?_ofList listed)
    obtain ⟨m', mem', named, rfl⟩ := held v found
    rw [List.inj_on_of_nodup_map distinct mem' mem named] at found
    exact found

end Descriptor

namespace Registry

variable {r : Registry} {typeName field : String} {d : Descriptor} {m : Member} {kind : PrimitiveKind}

/-- A member of the type itself is found before those of its ancestors. -/
theorem member?_of_own (known : r.get? typeName = some d) (own : d.member? field = some m) :
    r.member? typeName field = some m := by
  obtain ⟨ancestors, lineage⟩ := List.head?_eq_some_iff.1 (lineage_head? known)
  rw [member?, lineage, List.findSome?_cons, own]

/-- Which primitive members of a new object are zero.  Where the lineage of a type has a member for a primitive, a new
object holds the zero of that kind if the type itself declares a member of the name.  If only an ancestor does, the
object has no such member. -/
theorem instantiate_zero (known : r.get? typeName = some d) (concrete : d.isAbstract = false)
    (plain : d.blueprint = none) (distinct : (d.members.map (·.name)).Nodup)
    (found : r.member? typeName field = some m) (primitive : m.declared = .primitive kind) (g : Graph) :
    ∃ id g', r.instantiate g (.complex typeName) = .ok (.object id, g') ∧ g.Extends g' ∧
      (g'.object id).members.get? field =
        if (d.member? field).isSome then some (.scalar (.zero kind)) else none := by
  refine ⟨g.objects.next, (g.newObject d.defaultObject).2, ?_, Graph.newObject_extends g _, ?_⟩
  · simp only [instantiate, known, concrete, plain, Bool.false_eq_true, if_false]
    rfl
  · have made : (g.newObject d.defaultObject).2.object g.objects.next = d.defaultObject :=
      Store.get_push_next _ _
    rw [made, Descriptor.get?_defaultObject distinct]
    cases own : d.member? field with
    | none => rfl
    | some m' =>
      obtain rfl := Option.some.inj ((member?_of_own known own).symm.trans found)
      simp [Descriptor.initial, primitive]

/-- A count is declared as a text first, and then anew. -/
theorem instantiate_zero_redeclared :
    let row := ((Descriptor.ofName "Row").addField "count" (.scalar .string)).addMember "count"
      (.primitive (.integer .int))
    let r := ofList [row]
    (r.get? "Row" = some row ∧ (row.members.map (·.name)).Nodup ∧
      r.member? "Row" "count" = some ⟨"count", .primitive (.integer .int)⟩) ∧
      ∃ id g', r.instantiate .empty (.complex "Row") = .ok (.object id, g') ∧
        (g'.object id).members.get? "count" = some (.scalar (.zero (.integer .int))) := by
  intro row r
  have known : r.get? "Row" = some row := rfl
  have distinct : (row.members.map (·.name)).Nodup :=
    Descriptor.Built.nodup (.member (.field (.header "Row" [] false none) "count" (.scalar .string)) "count" _)
  have found : r.member? "Row" "count" = some ⟨"count", .primitive (.integer .int)⟩ :=
    member?_of_own known (by decide)
  obtain ⟨id, g', made, -, zero⟩ := instantiate_zero known rfl rfl distinct found rfl .empty
  exact ⟨⟨known, distinct, found⟩, id, g', made, zero⟩

/-- A count that is declared by an ancestor is found as a member, but it is not there in a new object. -/
theorem instantiate_zero_inherited :
    let base := (Descriptor.ofName "Base").addMember "count" (.primitive (.integer .int))
    let leaf : Descriptor := { Descriptor.ofName "Leaf" with ancestors := ["Base"] }
    let r := ofList [base, leaf]
    r.get? "Leaf" = some leaf ∧ leaf.isAbstract = false ∧ leaf.blueprint = none ∧
      r.member? "Leaf" "count" = some ⟨"count", .primitive (.integer .int)⟩ ∧
      ∃ id g', r.instantiate .empty (.complex "Leaf") = .ok (.object id, g') ∧
        (g'.object id).members.get? "count" = none ∧ rawMember (g'.object id) "count" = .null := by
  intro base leaf r
  have known : r.get? "Leaf" = some leaf := (Entries.get?_insert _ _ _ _).trans (if_pos rfl)
  have found : r.member? "Leaf" "count" = some ⟨"count", .primitive (.integer .int)⟩ := by
    dsimp only [r, leaf, base]
    cbv
  have made : r.instantiate .empty (.complex "Leaf") = .ok (Graph.empty.newObject leaf.defaultObject) := by
    simp only [instantiate, known]
    rfl
  exact ⟨known, rfl, rfl, found, _, _, made, rfl, rfl⟩

end Registry

end FieldBinding
