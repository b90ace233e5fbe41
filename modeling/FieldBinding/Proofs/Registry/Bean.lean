import FieldBinding.Navigation
import FieldBinding.Proofs.Graph.Routes
import FieldBinding.Proofs.Running

/-!
# Registries of beans

A type is a *bean* if it is built from fields and members only, each name once.  A registry of beans in which no
two names of a type and its ancestors share an accessor name keeps its promise that a field is one place: the
getter, every setter and the member of a field all mean the same raw member.

Main results:

* `Registry.Bean.yieldAt_held` — a move to a child never makes new nodes.
* `Registry.Bean.place_child` — what is stored in the place of a field is what its child is read from.

The empty registry is one of beans, and objects of types that are not registered are covered as well: each of
their names is a raw member.
-/

namespace FieldBinding

/-! ## Names of accessors -/

/-- The name of a field as accessors write it. -/
def capitalized (field : String) : String :=
  accessorName "" field

theorem accessorName_eq (verb field : String) : accessorName verb field = verb ++ capitalized field := by
  unfold capitalized accessorName
  cases field.toList <;> simp

theorem accessorName_inj (verb : String) {a b : String} :
    accessorName verb a = accessorName verb b ↔ capitalized a = capitalized b := by
  rw [accessorName_eq, accessorName_eq]
  exact String.append_right_inj verb

theorem accessorName_get_ne_is (a b : String) : accessorName "get" a ≠ accessorName "is" b := by
  rw [accessorName_eq, accessorName_eq]
  intro h
  have chars := congrArg String.toList h
  simp [String.toList_append] at chars

/-! ## Beans -/

namespace Descriptor

/-- A type that is built from fields and members only, each name once. -/
inductive Bean : Descriptor → Prop where
  | header (name : String) (ancestors : List String) (isAbstract : Bool)
      (blueprint : Option Blueprint) :
      Bean ⟨name, ancestors, isAbstract, blueprint, [], .empty, .empty⟩
  | field {d : Descriptor} (bean : Bean d) (name : String) (declared : TypeTag)
      (new : ∀ m ∈ d.members, m.name ≠ name) : Bean (d.addField name declared)
  | member {d : Descriptor} (bean : Bean d) (name : String) (declared : TypeTag)
      (new : ∀ m ∈ d.members, m.name ≠ name) : Bean (d.addMember name declared)

/-- A getter under its name reads a raw member of the type. -/
def Reads (d : Descriptor) (key : String) (getter : Getter) : Prop :=
  ∃ m ∈ d.members, (key = accessorName "get" m.name ∨ key = accessorName "is" m.name) ∧
    ∀ g o, getter.read g o = .held (Registry.rawMember o m.name)

/-- A setter under its name stores in a raw member of the type, and there is a getter for it. -/
def Stores (d : Descriptor) (key : String) (s : Setter) : Prop :=
  ∃ m ∈ d.members, key = accessorName "set" m.name ∧ (∀ o v, s.store o v = .ok (o.setMember m.name v)) ∧
    ((d.getters.get? (accessorName "get" m.name)).isSome ∨
      (d.getters.get? (accessorName "is" m.name)).isSome)

/-- The verb of the getter of a field. -/
def getterVerb (declared : TypeTag) : String :=
  if declared = .primitive .boolean then "is" else "get"

theorem getterVerb_cases (declared : TypeTag) :
    getterVerb declared = "get" ∨ getterVerb declared = "is" := by
  unfold getterVerb
  split
  · exact .inr rfl
  · exact .inl rfl

section AddField

variable (d : Descriptor) (name : String) (declared : TypeTag)

theorem members_addMember (new : ∀ m ∈ d.members, m.name ≠ name) :
    (d.addMember name declared).members = d.members ++ [⟨name, declared⟩] := by
  simp only [addMember, List.append_cancel_right_eq, List.filter_eq_self, decide_eq_true_eq]
  exact new

theorem getters_addField (key : String) :
    (d.addField name declared).getters.get? key =
      if key = accessorName (getterVerb declared) name then
        some (.ofMember (accessorName (getterVerb declared) name) declared name)
      else d.getters.get? key :=
  Entries.get?_insert _ _ _ _

theorem setters_addField (key : String) :
    (d.addField name declared).setters.get? key =
      if key = accessorName "set" name then
        some (((d.setters.get? (accessorName "set" name)).getD []) ++
          [.ofMember (accessorName "set" name) declared name])
      else d.setters.get? key :=
  Entries.get?_insert _ _ _ _

/-- A getter that was there is still there, if only under its name. -/
theorem isSome_getters_addField {key : String} (h : (d.getters.get? key).isSome) :
    ((d.addField name declared).getters.get? key).isSome := by
  rw [getters_addField]
  split
  · rfl
  · exact h

end AddField

namespace Bean

variable {d : Descriptor}

theorem getters_read (bean : Bean d) {key : String} {getter : Getter}
    (h : d.getters.get? key = some getter) : d.Reads key getter := by
  induction bean with
  | header => cases h
  | @field d _ name declared new ih =>
    have members : (d.addField name declared).members = d.members ++ [⟨name, declared⟩] :=
      members_addMember d name declared new
    rw [getters_addField] at h
    split at h
    · next same =>
      rw [Option.some.injEq] at h
      subst h
      refine ⟨⟨name, declared⟩, by simp [members], ?_, fun _ _ => rfl⟩
      rcases getterVerb_cases declared with verb | verb <;> simp [same, verb]
    · obtain ⟨m, hm, names, reads⟩ := ih h
      exact ⟨m, by simp [members, hm], names, reads⟩
  | @member d _ name declared new ih =>
    obtain ⟨m, hm, names, reads⟩ := ih h
    exact ⟨m, by simp [members_addMember d name declared new, hm], names, reads⟩

theorem setters_store (bean : Bean d) {key : String} {setters : List Setter}
    (h : d.setters.get? key = some setters) {s : Setter} (hs : s ∈ setters) : d.Stores key s := by
  induction bean generalizing setters with
  | header => cases h
  | @field d _ name declared new ih =>
    have members : (d.addField name declared).members = d.members ++ [⟨name, declared⟩] :=
      members_addMember d name declared new
    have earlier : d.Stores key s → (d.addField name declared).Stores key s := by
      rintro ⟨m, hm, names, stores, get | get⟩
      · exact ⟨m, by simp [members, hm], names, stores, .inl (isSome_getters_addField d _ _ get)⟩
      · exact ⟨m, by simp [members, hm], names, stores, .inr (isSome_getters_addField d _ _ get)⟩
    rw [setters_addField] at h
    split at h
    · next same =>
      rw [Option.some.injEq] at h
      subst h
      rcases List.mem_append.1 hs with hs | hs
      · cases old : d.setters.get? (accessorName "set" name) with
        | none => simp [old] at hs
        | some olds =>
          rw [old, Option.getD_some] at hs
          exact earlier (ih (same ▸ old) hs)
      · rw [List.mem_singleton] at hs
        subst hs
        refine ⟨⟨name, declared⟩, by simp [members], same, fun _ _ => rfl, ?_⟩
        rcases getterVerb_cases declared with verb | verb <;> simp [getters_addField, verb]
    · exact earlier (ih h hs)
  | @member d _ name declared new ih =>
    obtain ⟨m, hm, names, stores, get⟩ := ih h hs
    exact ⟨m, by simp [members_addMember d name declared new, hm], names, stores, get⟩

end Bean

end Descriptor

/-! ## Registries -/

namespace Registry

/-- All types are beans, and no two different names of a type and its ancestors give the same accessor
name. -/
structure Bean (r : Registry) : Prop where
  types : ∀ name d, r.get? name = some d → d.Bean
  distinct : ∀ typeName, ∀ d ∈ r.lineage typeName, ∀ d' ∈ r.lineage typeName,
    ∀ m ∈ d.members, ∀ m' ∈ d'.members,
      accessorName "get" m.name = accessorName "get" m'.name → m.name = m'.name

theorem walk_registered (r : Registry) (met queue : List String) :
    ∀ d ∈ r.walk met queue, ∃ name, r.get? name = some d := by
  induction met, queue using walk.induct r with
  | case1 => simp [walk_nil]
  | case2 met name rest hmet ih => rwa [walk_met hmet]
  | case3 met name rest hmet unknown ih => rwa [walk_unknown hmet unknown]
  | case4 met name rest hmet d found ih =>
    rw [walk_known hmet found]
    intro e he
    rcases List.mem_cons.1 he with rfl | he
    · exact ⟨name, found⟩
    · exact ih e he

/-- A setter that is chosen is one of the setters of the field. -/
theorem mem_settersOf_of_setter {r : Registry} {typeName field : String} {hint : Option TypeTag}
    {s : Setter} (h : r.setter typeName field hint = .ok s) : s ∈ r.settersOf typeName field := by
  unfold setter at h
  generalize hs : r.settersOf typeName field = candidates at h
  simp only at h
  split at h
  · cases h
  · split at h
    · next found =>
      rw [Except.ok.injEq] at h
      subst h
      exact List.mem_of_find?_eq_some found
    · cases h
  · rw [Except.ok.injEq] at h
    subst h
    exact List.mem_singleton_self _
  · split at h
    · next found =>
      rw [Except.ok.injEq] at h
      subst h
      obtain ⟨getter, -, found⟩ := Option.bind_eq_some_iff.1 found
      rw [← hs]
      exact List.mem_of_find?_eq_some found
    · cases h

/-- So is a place that is a setter. -/
theorem mem_settersOf_of_place {r : Registry} {typeName field : String} {hint : Option TypeTag} {s : Setter}
    (h : r.place typeName field hint = .ok (.setter s)) : s ∈ r.settersOf typeName field := by
  unfold place at h
  split at h
  · next chosen =>
    cases h
    exact mem_settersOf_of_setter chosen
  · split at h <;> cases h
  · cases h

/-- The only failure that lets a field be looked for among the members names the field itself. -/
theorem names_of_setter {r : Registry} {typeName field : String} {hint : Option TypeTag}
    {a b : String} (h : r.setter typeName field hint = .error (.noAccessor a b)) :
    a = typeName ∧ b = field := by
  unfold setter at h
  simp only at h
  split at h <;> (try split at h) <;> cases h <;> exact ⟨rfl, rfl⟩

theorem member?_name {r : Registry} {typeName field : String} {m : Member}
    (h : r.member? typeName field = some m) :
    m.name = field ∧ ∃ d ∈ r.lineage typeName, m ∈ d.members := by
  obtain ⟨d, hd, found⟩ := List.exists_of_findSome?_eq_some h
  have named := List.find?_some found
  exact ⟨by simpa using named, d, hd, List.mem_of_find?_eq_some found⟩

namespace Bean

variable {r : Registry} (bean : r.Bean)

include bean

theorem of_lineage {typeName : String} {d : Descriptor} (h : d ∈ r.lineage typeName) : d.Bean := by
  obtain ⟨name, found⟩ := r.walk_registered [] [typeName] d h
  exact bean.types name d found

/-- A getter reads a raw member whose name differs from the field in the case of its first letter at most. -/
theorem getter?_reads {typeName field : String} {getter : Getter}
    (h : r.getter? typeName field = some getter) :
    ∃ d ∈ r.lineage typeName, ∃ m ∈ d.members, capitalized m.name = capitalized field ∧
      ∀ g o, getter.read g o = .held (rawMember o m.name) := by
  obtain ⟨d, hd, found⟩ := List.exists_of_findSome?_eq_some h
  rw [Option.or_eq_some_iff] at found
  rcases found with found | ⟨-, found⟩
  · obtain ⟨m, hm, names | names, reads⟩ := (bean.of_lineage hd).getters_read found
    · exact ⟨d, hd, m, hm, ((accessorName_inj _).1 names).symm, reads⟩
    · exact absurd names (accessorName_get_ne_is _ _)
  · obtain ⟨m, hm, names | names, reads⟩ := (bean.of_lineage hd).getters_read found
    · exact absurd names.symm (accessorName_get_ne_is _ _)
    · exact ⟨d, hd, m, hm, ((accessorName_inj _).1 names).symm, reads⟩

/-- A setter stores in such a member, and then the field has a getter. -/
theorem settersOf_store {typeName field : String} {s : Setter}
    (h : s ∈ r.settersOf typeName field) :
    ∃ d ∈ r.lineage typeName, ∃ m ∈ d.members, capitalized m.name = capitalized field ∧
      (∀ o v, s.store o v = .ok (o.setMember m.name v)) ∧ (r.getter? typeName field).isSome := by
  obtain ⟨d, hd, hs⟩ := List.mem_flatMap.1 h
  cases found : d.setters.get? (accessorName "set" field) with
  | none => simp [found] at hs
  | some setters =>
    rw [found, Option.getD_some] at hs
    obtain ⟨m, hm, names, stores, get⟩ := (bean.of_lineage hd).setters_store found hs
    have same := (accessorName_inj _).1 names
    refine ⟨d, hd, m, hm, same.symm, stores, ?_⟩
    rw [getter?, List.findSome?_isSome_iff]
    refine ⟨d, hd, ?_⟩
    rw [← accessorName_inj "get"] at same
    have same' := (accessorName_inj "is").2 ((accessorName_inj _).1 names)
    rw [same, same']
    rcases get with get | get <;> simp [get]

/-- A move to a child never makes new nodes. -/
theorem yieldAt_held {g : Graph} {v : Value} {name : String} {y : Yield}
    (h : r.yieldAt g v name = .ok y) : ∃ c, y = .held c := by
  unfold yieldAt at h
  split at h
  · exact ⟨v, (Except.ok.inj h).symm⟩
  cases v with
  | map id => exact ⟨_, (Except.ok.inj h).symm⟩
  | object id =>
    simp only at h
    split at h
    · exact ⟨_, (Except.ok.inj h).symm⟩
    cases hgetter : r.getter? (g.object id).typeName name with
    | some getter =>
      obtain ⟨d, -, m, -, -, reads⟩ := bean.getter?_reads hgetter
      simp only [hgetter, reads] at h
      exact ⟨_, (Except.ok.inj h).symm⟩
    | none =>
      cases hmember : r.member? (g.object id).typeName name with
      | some m =>
        simp only [hgetter, hmember] at h
        exact ⟨_, (Except.ok.inj h).symm⟩
      | none => simp [hgetter, hmember] at h
  | _ => cases h

/-- So it leaves the graph as it was. -/
theorem child_held {g g' : Graph} {v c : Value} {name : String} (h : (r.child v name).run g = (.ok c, g')) :
    g' = g ∧ r.yieldAt g v name = .ok (.held c) := by
  rw [child_run] at h
  cases hyield : r.yieldAt g v name with
  | error e =>
    simp only [hyield] at h
    cases h
  | ok y =>
    obtain ⟨d, rfl⟩ := bean.yieldAt_held hyield
    simp only [hyield, Step.ofYield_held] at h
    cases h
    exact ⟨rfl, rfl⟩

/-- A move to a child looks at nothing but the node of the value. -/
theorem yieldAt_congr {g g' : Graph} {v : Value} (h : g'.node v = g.node v) (name : String) :
    r.yieldAt g' v name = r.yieldAt g v name := by
  unfold yieldAt
  split
  · rfl
  cases v with
  | map id =>
    have same : g'.map id = g.map id := Node.map.inj h
    simp only [same]
  | object id =>
    have same : g'.object id = g.object id := Node.object.inj h
    simp only [same]
    split
    · rfl
    cases hgetter : r.getter? (g.object id).typeName name with
    | some getter =>
      obtain ⟨d, -, m, -, -, reads⟩ := bean.getter?_reads hgetter
      simp only [reads]
    | none => rfl
  | _ => rfl

/-- A name stands for one slot, whatever the slots of the node hold. -/
theorem yieldAt_slot {g : Graph} {v c : Value} {name : String} (named : name ≠ "")
    (h : r.yieldAt g v name = .ok (.held c)) :
    v.holdsNames ∧ ∃ label, ∀ g' : Graph, (g'.node v).kind = (g.node v).kind →
      r.yieldAt g' v name = .ok (.held ((g'.slot? v label).getD .null)) := by
  cases v with
  | map id =>
    exact ⟨rfl, name, fun g' _ => by simp only [yieldAt, named, if_false]; rfl⟩
  | object id =>
    have typed : ∀ g' : Graph, (g'.node (.object id)).kind = (g.node (.object id)).kind →
        (g'.object id).typeName = (g.object id).typeName := fun g' same => NodeKind.object.inj same
    refine ⟨rfl, ?_⟩
    simp only [yieldAt, named, if_false] at h
    by_cases known : r.contains (g.object id).typeName
    case neg =>
      refine ⟨name, fun g' same => ?_⟩
      simp only [yieldAt, named, if_false, typed g' same, known]
      rfl
    simp only [known, Bool.not_true, Bool.false_eq_true, if_false] at h
    cases hgetter : r.getter? (g.object id).typeName name with
    | some getter =>
      obtain ⟨d, -, m, -, -, reads⟩ := bean.getter?_reads hgetter
      refine ⟨m.name, fun g' same => ?_⟩
      simp only [yieldAt, named, if_false, typed g' same, known, Bool.not_true, Bool.false_eq_true,
        hgetter, reads]
      rfl
    | none =>
      cases hmember : r.member? (g.object id).typeName name with
      | some m =>
        refine ⟨m.name, fun g' same => ?_⟩
        simp only [yieldAt, named, if_false, typed g' same, known, Bool.not_true,
          Bool.false_eq_true, hgetter, hmember]
        rfl
      | none => simp [hgetter, hmember] at h
  | _ => simp [yieldAt, named] at h

/-- A child that is not null is one of the values that the node holds. -/
theorem mem_children_of_yieldAt {g : Graph} {v c : Value} {name : String} (named : name ≠ "")
    (h : r.yieldAt g v name = .ok (.held c)) (value : c ≠ .null) : c ∈ g.children v := by
  obtain ⟨-, label, slot⟩ := bean.yieldAt_slot named h
  rw [slot g rfl, Except.ok.injEq, Yield.held.injEq] at h
  cases held : g.slot? v label with
  | none => simp [held, value.symm] at h
  | some u =>
    rw [held, Option.getD_some] at h
    exact (g.mem_children_iff v c).2 ⟨label, h ▸ held⟩

/-- What is stored in the place of a field is what its child is read from. -/
theorem place_child {typeName field : String} {hint : Option TypeTag} {p : Place}
    (h : r.place typeName field hint = .ok p) :
    ∃ member, (∀ o v, p.store o v = .ok (o.setMember member v)) ∧
      ∀ (g : Graph) (id : NodeId), field ≠ "" → (g.object id).typeName = typeName →
        r.contains typeName → r.yieldAt g (.object id) field =
          .ok (.held (rawMember (g.object id) member)) := by
  -- whichever accessor is found, its member is the one with the accessor name of the field
  have one : ∀ d ∈ r.lineage typeName, ∀ m ∈ d.members, capitalized m.name = capitalized field →
      ∀ getter, r.getter? typeName field = some getter →
        ∀ g o, getter.read g o = .held (rawMember o m.name) := by
    intro d hd m hm names getter hgetter
    obtain ⟨d', hd', m', hm', names', reads⟩ := bean.getter?_reads hgetter
    have same := (accessorName_inj "get").2 (names.trans names'.symm)
    rwa [bean.distinct typeName d hd d' hd' m hm m' hm' same]
  unfold place at h
  split at h
  · next s hs =>
    rw [Except.ok.injEq] at h
    subst h
    obtain ⟨d, hd, m, hm, names, stores, get⟩ := bean.settersOf_store (mem_settersOf_of_setter hs)
    obtain ⟨getter, hgetter⟩ := Option.isSome_iff_exists.1 get
    refine ⟨m.name, fun o v => by simp [Place.store, stores, Except.mapError], ?_⟩
    rintro g id named rfl known
    simp [yieldAt, named, known, hgetter, one d hd m hm names getter hgetter]
  · next a b hs =>
    obtain ⟨rfl, rfl⟩ := names_of_setter hs
    split at h
    · next m hmember =>
      rw [Except.ok.injEq] at h
      subst h
      obtain ⟨name, d, hd, hm⟩ := member?_name hmember
      refine ⟨m.name, fun o v => rfl, ?_⟩
      rintro g id named rfl known
      cases hgetter : r.getter? (g.object id).typeName b with
      | some getter =>
        simp [yieldAt, named, known, hgetter, one d hd m hm (by rw [name]) getter hgetter]
      | none => simp [yieldAt, named, known, hgetter, hmember]
    · cases h
  · cases h

end Bean

/-- The empty registry is one of beans. -/
theorem empty_bean : empty.Bean where
  types name d h := by cases h
  distinct typeName d hd := by
    obtain ⟨name, found⟩ := empty.walk_registered [] [typeName] d hd
    cases found

/-- A registry of one type describes no other. -/
theorem eq_of_get?_single {d e : Descriptor} {name : String} (found : (ofList [d]).get? name = some e) :
    e = d := by
  simp only [ofList, register, get?, List.foldl_cons, List.foldl_nil, Entries.get?_insert] at found
  split at found
  · exact (Option.some.inj found).symm
  · cases found

theorem eq_of_mem_lineage_single {d e : Descriptor} {typeName : String}
    (mem : e ∈ (ofList [d]).lineage typeName) : e = d := by
  obtain ⟨name, found⟩ := (ofList [d]).walk_registered [] [typeName] e mem
  exact eq_of_get?_single found

/-- A registry of one bean is one of beans. -/
theorem single_bean {d : Descriptor} (bean : d.Bean)
    (distinct : ∀ m ∈ d.members, ∀ m' ∈ d.members,
      accessorName "get" m.name = accessorName "get" m'.name → m.name = m'.name) :
    (ofList [d]).Bean := by
  refine ⟨fun name e found => eq_of_get?_single found ▸ bean, fun typeName e he e' he' => ?_⟩
  rw [eq_of_mem_lineage_single he, eq_of_mem_lineage_single he']
  exact distinct

end Registry

end FieldBinding
