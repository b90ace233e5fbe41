import FieldBinding.Proofs.Registry.Bean

/-!
# Registries of types that stand alone

A registry of beans is `Standalone` if no type has ancestors or a blueprint of its own.  Then a field of an object is
a member of its type: what is read from the field, what is stored in it and what is known of its type are all taken
from this one member.

Main results:

* `Registry.Standalone.place_accesses` — the place of a field is a member of the type.
* `Registry.Accesses.childType?_eq`, `Registry.Accesses.yieldAt_eq` — the type of the field is the declared type of
  the member, and its child is what the member holds.
* `Descriptor.Bean.rawMember_defaultObject` — a new object holds the initial value of every member.
-/

namespace FieldBinding

namespace Entries

variable {α : Type}

/-- A key that is listed has a value. -/
theorem isSome_get?_ofList {entries : List (String × α)} {e : String × α} (mem : e ∈ entries) :
    ((ofList entries).get? e.1).isSome := by
  have go : ∀ (entries : List (String × α)) (m : Entries α),
      (e ∈ entries ∨ (m.get? e.1).isSome) →
        ((entries.foldl (fun m e => m.insert e.1 e.2) m).get? e.1).isSome := by
    intro entries
    induction entries with
    | nil => exact fun m h => h.resolve_left List.not_mem_nil
    | cons entry rest ih =>
      intro m h
      refine ih _ ?_
      rw [get?_insert]
      rcases h with h | h
      · rcases List.mem_cons.1 h with rfl | h
        · exact .inr (by simp)
        · exact .inl h
      · exact .inr (by split <;> simp [h])
  exact go entries empty (.inl mem)

end Entries

namespace Descriptor.Bean

variable {d : Descriptor}

/-- Members of one name are one member. -/
theorem member_ext (bean : Bean d) :
    ∀ m ∈ d.members, ∀ m' ∈ d.members, m.name = m'.name → m = m' := by
  have step : ∀ (d : Descriptor) (name : String) (declared : TypeTag), (∀ m ∈ d.members, m.name ≠ name) →
      (∀ m ∈ d.members, ∀ m' ∈ d.members, m.name = m'.name → m = m') →
      ∀ m ∈ d.members ++ [⟨name, declared⟩], ∀ m' ∈ d.members ++ [⟨name, declared⟩],
        m.name = m'.name → m = m' := by
    intro d name declared new ih m hm m' hm' same
    simp only [List.mem_append, List.mem_singleton] at hm hm'
    rcases hm with hm | rfl <;> rcases hm' with hm' | rfl
    · exact ih m hm m' hm' same
    · exact absurd same (new m hm)
    · exact absurd same.symm (new m' hm')
    · rfl
  induction bean with
  | header => exact fun m hm => absurd hm List.not_mem_nil
  | @field d _ name declared new ih =>
    rw [show (d.addField name declared).members = d.members ++ [⟨name, declared⟩] from
      members_addMember d name declared new]
    exact step d name declared new ih
  | @member d _ name declared new ih =>
    rw [members_addMember d name declared new]
    exact step d name declared new ih

/-- A getter is the one that was made with its member. -/
theorem getter_eq_ofMember (bean : Bean d) {key : String} {getter : Getter}
    (h : d.getters.get? key = some getter) :
    ∃ m ∈ d.members, key = accessorName (getterVerb m.declared) m.name ∧
      getter = .ofMember key m.declared m.name := by
  induction bean with
  | header => cases h
  | @field d _ name declared new ih =>
    have members : (d.addField name declared).members = d.members ++ [⟨name, declared⟩] :=
      members_addMember d name declared new
    rw [getters_addField] at h
    split at h
    · next same =>
      rw [Option.some.injEq] at h
      exact ⟨⟨name, declared⟩, by simp [members], same, by rw [← h, same]⟩
    · obtain ⟨m, hm, found⟩ := ih h
      exact ⟨m, by simp [members, hm], found⟩
  | @member d _ name declared new ih =>
    obtain ⟨m, hm, found⟩ := ih h
    exact ⟨m, by simp [members_addMember d name declared new, hm], found⟩

/-- A setter is the one that was made with its member. -/
theorem setter_eq_ofMember (bean : Bean d) {key : String} {setters : List Setter}
    (h : d.setters.get? key = some setters) {s : Setter} (hs : s ∈ setters) :
    ∃ m ∈ d.members, key = accessorName "set" m.name ∧ s = .ofMember key m.declared m.name := by
  induction bean generalizing setters with
  | header => cases h
  | @field d _ name declared new ih =>
    have members : (d.addField name declared).members = d.members ++ [⟨name, declared⟩] :=
      members_addMember d name declared new
    have earlier : ∀ {olds}, d.setters.get? key = some olds → s ∈ olds →
        ∃ m ∈ (d.addField name declared).members,
          key = accessorName "set" m.name ∧ s = .ofMember key m.declared m.name := by
      intro olds old hs
      obtain ⟨m, hm, found⟩ := ih old hs
      exact ⟨m, by simp [members, hm], found⟩
    rw [setters_addField] at h
    split at h
    case isFalse => exact earlier h hs
    next same =>
    rw [Option.some.injEq] at h
    subst h
    rcases List.mem_append.1 hs with hs | hs
    · cases old : d.setters.get? (accessorName "set" name) with
      | none => simp [old] at hs
      | some olds =>
        rw [old, Option.getD_some] at hs
        exact earlier (same ▸ old) hs
    · rw [List.mem_singleton] at hs
      exact ⟨⟨name, declared⟩, by simp [members], same, by rw [hs, same]⟩
  | @member d _ name declared new ih =>
    obtain ⟨m, hm, found⟩ := ih h hs
    exact ⟨m, by simp [members_addMember d name declared new, hm], found⟩

/-- A new object holds the initial value of every member. -/
theorem rawMember_defaultObject (bean : Bean d) {m : Member} (hm : m ∈ d.members) :
    Registry.rawMember d.defaultObject m.name = initial m.declared := by
  have listed : (m.name, initial m.declared) ∈ d.members.map fun m => (m.name, initial m.declared) :=
    List.mem_map_of_mem hm
  obtain ⟨v, found⟩ := Option.isSome_iff_exists.1 (Entries.isSome_get?_ofList listed)
  obtain ⟨m', hm', same⟩ := List.mem_map.1 (Entries.mem_ofList (Entries.mem_of_get? found))
  obtain ⟨name, value⟩ := Prod.mk.inj same
  rw [Registry.rawMember, defaultObject, found, Option.getD_some, ← value, bean.member_ext m' hm' m hm name]

end Descriptor.Bean

namespace Registry

/-- Types that are built from fields and members only, without ancestors and without blueprints, and no two
different names of a type give the same accessor name. -/
structure Standalone (r : Registry) : Prop where
  bean : r.Bean
  named : ∀ name d, r.get? name = some d → d.name = name
  alone : ∀ name d, r.get? name = some d → d.ancestors = []
  direct : ∀ name d, r.get? name = some d → d.blueprint = none

/-- A field of a type means one of its members, and there is a way to the member. -/
structure Accesses (r : Registry) (typeName field : String) (m : Member) : Prop where
  known : ∃ d, r.get? typeName = some d ∧ m ∈ d.members
  names : capitalized m.name = capitalized field
  way : (r.getter? typeName field).isSome ∨ r.member? typeName field = some m

theorem contains_of_get? {r : Registry} {typeName : String} {d : Descriptor} (h : r.get? typeName = some d) :
    r.contains typeName :=
  Option.isSome_iff_exists.2 ⟨d, h⟩

/-- Nothing descends from a type that is not registered. -/
theorem lineage_unknown {r : Registry} {typeName : String} (h : r.get? typeName = none) :
    r.lineage typeName = [] := by
  rw [lineage, walk_unknown List.not_mem_nil h, walk_nil]

namespace Standalone

variable {r : Registry} (alone : r.Standalone) {typeName field : String} {d : Descriptor}

include alone

theorem lineage_eq (known : r.get? typeName = some d) : r.lineage typeName = [d] := by
  rw [lineage, walk_known List.not_mem_nil known, alone.alone typeName d known, List.append_nil, walk_nil]

/-- Members whose names differ in the case of the first letter at most are one member. -/
theorem member_unique (known : r.get? typeName = some d) {m m' : Member} (hm : m ∈ d.members)
    (hm' : m' ∈ d.members) (same : capitalized m.name = capitalized m'.name) : m = m' := by
  have here : d ∈ r.lineage typeName := by rw [alone.lineage_eq known]; exact List.mem_singleton_self d
  refine (alone.bean.types typeName d known).member_ext m hm m' hm' ?_
  exact alone.bean.distinct typeName d here d here m hm m' hm' ((accessorName_inj "get").2 same)

theorem getter?_ofMember (known : r.get? typeName = some d) {getter : Getter}
    (h : r.getter? typeName field = some getter) :
    ∃ m ∈ d.members, capitalized m.name = capitalized field ∧ getter.result = m.declared ∧
      ∀ g o, getter.read g o = .held (rawMember o m.name) := by
  have bean := alone.bean.types typeName d known
  rw [getter?, alone.lineage_eq known, List.findSome?_singleton, Option.or_eq_some_iff] at h
  have made : ∃ verb, (verb = "get" ∨ verb = "is") ∧ d.getters.get? (accessorName verb field) = some getter := by
    rcases h with h | ⟨-, h⟩
    · exact ⟨"get", .inl rfl, h⟩
    · exact ⟨"is", .inr rfl, h⟩
  obtain ⟨verb, verbs, found⟩ := made
  obtain ⟨m, hm, key, rfl⟩ := bean.getter_eq_ofMember found
  refine ⟨m, hm, ?_, rfl, fun _ _ => rfl⟩
  rcases verbs with rfl | rfl <;> rcases Descriptor.getterVerb_cases m.declared with verb | verb <;> rw [verb] at key
  · exact ((accessorName_inj _).1 key).symm
  · exact absurd key (accessorName_get_ne_is _ _)
  · exact absurd key.symm (accessorName_get_ne_is _ _)
  · exact ((accessorName_inj _).1 key).symm

theorem settersOf_ofMember (known : r.get? typeName = some d) {s : Setter}
    (h : s ∈ r.settersOf typeName field) :
    ∃ m ∈ d.members, capitalized m.name = capitalized field ∧ s.parameter = m.declared ∧
      (∀ o v, s.store o v = .ok (o.setMember m.name v)) ∧ (r.getter? typeName field).isSome := by
  obtain ⟨-, -, -, -, -, -, get⟩ := alone.bean.settersOf_store h
  rw [settersOf, alone.lineage_eq known, List.flatMap_singleton] at h
  cases found : d.setters.get? (accessorName "set" field) with
  | none => simp [found] at h
  | some setters =>
    rw [found, Option.getD_some] at h
    obtain ⟨m, hm, key, rfl⟩ := (alone.bean.types typeName d known).setter_eq_ofMember found h
    exact ⟨m, hm, ((accessorName_inj _).1 key).symm, rfl, fun _ _ => rfl, get⟩

theorem member?_mem (known : r.get? typeName = some d) {m : Member} (h : r.member? typeName field = some m) :
    m ∈ d.members ∧ m.name = field := by
  obtain ⟨name, e, he, hm⟩ := member?_name h
  rw [alone.lineage_eq known, List.mem_singleton] at he
  exact ⟨he ▸ hm, name⟩

/-- The place of a field is a member of the type. -/
theorem place_accesses (known : r.get? typeName = some d) {hint : Option TypeTag} {p : Place}
    (h : r.place typeName field hint = .ok p) :
    ∃ m, r.Accesses typeName field m ∧ p.type = m.declared ∧
      ∀ o v, p.store o v = .ok (o.setMember m.name v) := by
  unfold place at h
  split at h
  · next s hs =>
    rw [Except.ok.injEq] at h
    subst h
    obtain ⟨m, hm, names, parameter, stores, get⟩ :=
      alone.settersOf_ofMember known (mem_settersOf_of_setter hs)
    exact ⟨m, ⟨⟨d, known, hm⟩, names, .inl get⟩, parameter,
      fun o v => by simp [Place.store, stores, Except.mapError]⟩
  · next a b hs =>
    obtain ⟨rfl, rfl⟩ := names_of_setter hs
    split at h
    · next m found =>
      rw [Except.ok.injEq] at h
      subst h
      obtain ⟨hm, name⟩ := alone.member?_mem known found
      exact ⟨m, ⟨⟨d, known, hm⟩, by rw [name], .inr found⟩, rfl, fun _ _ => rfl⟩
    · cases h
  · cases h

end Standalone

namespace Accesses

variable {r : Registry} (alone : r.Standalone) {typeName field : String} {m : Member}
  (accesses : r.Accesses typeName field m)

include alone accesses

/-- A setter of the field takes what the member is declared for. -/
theorem parameter_eq {s : Setter} (h : s ∈ r.settersOf typeName field) : s.parameter = m.declared := by
  obtain ⟨d, known, hm⟩ := accesses.known
  obtain ⟨m', hm', names, parameter, -⟩ := alone.settersOf_ofMember known h
  rw [parameter, alone.member_unique known hm' hm (names.trans accesses.names.symm)]

/-- The field has the declared type of the member. -/
theorem declared?_eq : r.declared? typeName field = some m.declared := by
  obtain ⟨d, known, hm⟩ := accesses.known
  unfold declared?
  cases hgetter : r.getter? typeName field with
  | some getter =>
    obtain ⟨m', hm', names, result, -⟩ := alone.getter?_ofMember known hgetter
    rw [Option.map_some, Option.some_or, result,
      alone.member_unique known hm' hm (names.trans accesses.names.symm)]
  | none =>
    have found : r.member? typeName field = some m := accesses.way.resolve_left (by simp [hgetter])
    cases hsetter : r.setter typeName field none with
    | error e => simp [found, Except.toOption]
    | ok s => simp [accesses.parameter_eq alone (mem_settersOf_of_setter hsetter), Except.toOption]

/-- So has the child of an object, whatever is stored there. -/
theorem childType?_eq {g : Graph} {id : NodeId} (typed : (g.object id).typeName = typeName)
    (hint : Option TypeTag) : r.childType? g (.object id) field hint = some m.declared := by
  subst typed
  simp only [childType?, accesses.declared?_eq alone]
  cases hinted : hint.bind fun tag => (r.setter (g.object id).typeName field (some tag)).toOption with
  | none => rfl
  | some s =>
    obtain ⟨tag, -, found⟩ := Option.bind_eq_some_iff.1 hinted
    have setter : r.setter (g.object id).typeName field (some tag) = .ok s := by
      cases h : r.setter (g.object id).typeName field (some tag) with
      | error e => simp [h, Except.toOption] at found
      | ok s' => simpa [h, Except.toOption] using found
    rw [Option.map_some, Option.some_or, accesses.parameter_eq alone (mem_settersOf_of_setter setter)]

/-- The child is what the member holds. -/
theorem yieldAt_eq {g : Graph} {id : NodeId} (typed : (g.object id).typeName = typeName) (named : field ≠ "") :
    r.yieldAt g (.object id) field = .ok (.held (rawMember (g.object id) m.name)) := by
  subst typed
  obtain ⟨d, known, hm⟩ := accesses.known
  simp only [yieldAt, named, if_false, contains_of_get? known, Bool.not_true, Bool.false_eq_true]
  cases hgetter : r.getter? (g.object id).typeName field with
  | some getter =>
    obtain ⟨m', hm', names, -, reads⟩ := alone.getter?_ofMember known hgetter
    simp only [reads, alone.member_unique known hm' hm (names.trans accesses.names.symm)]
  | none =>
    have found := accesses.way.resolve_left (by simp [hgetter])
    simp only [found]

end Accesses

/-- The empty registry has no types, so all of them stand alone. -/
theorem empty_standalone : empty.Standalone where
  bean := empty_bean
  named _ _ known := by cases known
  alone _ _ known := by cases known
  direct _ _ known := by cases known

/-- A registry of one bean without ancestors and without a blueprint is one of types that stand alone. -/
theorem single_standalone {d : Descriptor} (bean : d.Bean)
    (distinct : ∀ m ∈ d.members, ∀ m' ∈ d.members,
      accessorName "get" m.name = accessorName "get" m'.name → m.name = m'.name)
    (alone : d.ancestors = []) (direct : d.blueprint = none) : (ofList [d]).Standalone where
  bean := single_bean bean distinct
  named name e found := by
    simp only [ofList, register, get?, List.foldl_cons, List.foldl_nil, Entries.get?_insert] at found
    split at found
    · next same => rw [← Option.some.inj found, same]
    · cases found
  alone name e found := eq_of_get?_single found ▸ alone
  direct name e found := eq_of_get?_single found ▸ direct

/-- So is a registry of one type with one field. -/
theorem single_field_standalone (typeName field : String) (declared : TypeTag) :
    (ofList [(Descriptor.ofName typeName).addField field declared]).Standalone := by
  refine single_standalone (.field (.header typeName [] false none) field declared (by simp)) ?_ rfl rfl
  intro m hm m' hm' _
  rw [List.mem_singleton.1 hm, List.mem_singleton.1 hm']

end Registry

end FieldBinding
