import FieldBinding.Proofs.Graph.Mirroring
import FieldBinding.Proofs.Reading.Moves
import FieldBinding.Proofs.Registry.Bean

/-!
# Setters on both sides of a mirror

What a setter makes does not depend on the addresses of nodes.  So it makes an object of valid values only, and it
makes the same on both sides of a mirror.

Main results:

* `Setter.store_has` — a setter stores valid values only.
* `Registry.setChild_mirrored` — children are stored alike on both sides of a mirror.
-/

namespace FieldBinding

open FieldBinding.Graph

variable {base : Graph} {ρ ρ' : Renaming} {g g' h h' : Graph}

/-! ## Renamings that keep everything apart -/

/-- A renaming of the valid handles of a graph that keeps all other handles apart, too. -/
def Renaming.apart (ρ : Renaming) (g h : Graph) : Renaming where
  sequence id := if id < g.sequences.size then ρ.sequence id else h.sequences.size + id
  map id := if id < g.maps.size then ρ.map id else h.maps.size + id
  object id := if id < g.objects.size then ρ.object id else h.objects.size + id

/-- Addresses below a bound go below another one, without meeting, and all others go above it. -/
theorem apart_injective {n m : Nat} {f : Nat → Nat} (below : ∀ id < n, f id < m)
    (distinct : ∀ a < n, ∀ b < n, f a = f b → a = b) :
    Function.Injective fun id : Nat => if id < n then f id else m + id := by
  intro a b same
  simp only at same
  by_cases ha : a < n
  · by_cases hb : b < n
    · rw [if_pos ha, if_pos hb] at same
      exact distinct a ha b hb same
    · rw [if_pos ha, if_neg hb] at same
      have := below a ha
      omega
  · by_cases hb : b < n
    · rw [if_neg ha, if_pos hb] at same
      have := below b hb
      omega
    · rw [if_neg ha, if_neg hb] at same
      omega

theorem rename_injective (sequence : Function.Injective ρ.sequence) (map : Function.Injective ρ.map)
    (object : Function.Injective ρ.object) : Function.Injective (Value.rename ρ) := by
  intro v w same
  cases v <;> cases w <;> simp only [Value.rename, Value.sequence.injEq, Value.map.injEq,
    Value.object.injEq, Value.scalar.injEq, reduceCtorEq] at same ⊢
  · exact same
  · exact ⟨same.1, sequence same.2⟩
  · exact map same
  · exact object same

namespace Graph

theorem Embeds.apart_injective (e : g.Embeds ρ h) :
    Function.Injective (Value.rename (ρ.apart g h)) :=
  rename_injective
    (FieldBinding.apart_injective (fun id hid => (e.sequences.node id hid).1) e.sequences.distinct)
    (FieldBinding.apart_injective (fun id hid => (e.maps.node id hid).1) e.maps.distinct)
    (FieldBinding.apart_injective (fun id hid => (e.objects.node id hid).1) e.objects.distinct)

theorem rename_apart {v : Value} (has : g.Has v) : v.rename (ρ.apart g h) = v.rename ρ := by
  cases v with
  | null => rfl
  | scalar s => rfl
  | sequence kind id => exact congrArg (Value.sequence kind) (if_pos has)
  | map id => exact congrArg Value.map (if_pos has)
  | object id => exact congrArg Value.object (if_pos has)

theorem shifted_injective (g : Graph) : Function.Injective (Value.rename g.shifted) := by
  have moved : ∀ n : Nat, Function.Injective fun id : Nat => if id < n then id else id + 1 := by
    intro n a b same
    simp only at same
    split at same <;> split at same <;> omega
  exact rename_injective (moved _) (moved _) (moved _)

end Graph

/-! ## Setters -/

namespace Setter

/-- A setter stores valid values only. -/
theorem store_has (s : Setter) {o o' : Object} {v : Value} (members : ∀ e ∈ o.members.toList, g.Has e.2)
    (has : g.Has v) (stored : s.store o v = .ok o') : ∀ e ∈ o'.members.toList, g.Has e.2 := by
  -- a renaming that moves the invalid values only does not show in what is stored
  have law := s.store_rename g.shifted (fun _ _ same => g.shifted_injective same) o v
  rw [object_rename_shifted members, (g.rename_shifted_iff v).2 has, stored, Except.map,
    Except.ok.injEq] at law
  intro e he
  have entries := congrArg (fun o : Object => o.members.toList) law
  simp only [Object.rename, Entries.toList_map] at entries
  have same := List.map_eq_map_iff.1 (entries.symm.trans (List.map_id _).symm) e he
  exact (g.rename_shifted_iff e.2).1 (congrArg Prod.snd same)

/-- What a setter makes is the same on both sides of a mirror. -/
theorem store_mirrored (s : Setter) (m : base.Mirrors ρ g h) {o : Object} {v : Value}
    (members : ∀ e ∈ o.members.toList, g.Has e.2) (has : g.Has v) :
    s.store (o.rename ρ) (v.rename ρ) = (s.store o v).map (Object.rename ρ) := by
  have congr : ∀ o : Object, (∀ e ∈ o.members.toList, g.Has e.2) →
      o.rename (ρ.apart g h) = o.rename ρ := fun o held =>
    InStep.object_rename_congr (fun v hv => rename_apart hv) held
  have law := s.store_rename (ρ.apart g h) (fun _ _ same => m.embeds.apart_injective same) o v
  rw [congr o members, rename_apart has] at law
  rw [law]
  cases stored : s.store o v with
  | error e => rfl
  | ok o' => exact congrArg Except.ok (congr o' (s.store_has members has stored))

end Setter

/-! ## Runs on both sides of a mirror -/

/-- Two runs that both fail, or both come to related answers, with mirrored graphs. -/
inductive Mirrored {α : Type} (base : Graph) (ρ : Renaming) (g : Graph)
    (related : Renaming → Graph → α → α → Prop) :
    Except BindError α × Graph → Except BindError α × Graph → Prop where
  | ok {ρ' : Renaming} {g' h' : Graph} {a b : α} (mirrors : base.Mirrors ρ' g' h')
      (onward : Onward ρ g ρ' g') (answers : related ρ' g' a b) :
      Mirrored base ρ g related (.ok a, g') (.ok b, h')
  | error {e e' : BindError} {g' h' : Graph} : Mirrored base ρ g related (.error e, g') (.error e', h')

/-- Two values that are the same node on both sides. -/
def SameValue (ρ : Renaming) (g : Graph) (v w : Value) : Prop :=
  g.Has v ∧ w = v.rename ρ

/-- Two runs that have nothing to answer. -/
def Done (_ : Renaming) (_ : Graph) (_ _ : Unit) : Prop :=
  True

namespace Mirrored

variable {α β : Type} {R : Renaming → Graph → α → α → Prop} {S : Renaming → Graph → β → β → Prop}

/-- Related runs may have something in front of them. -/
theorem after {a b : Except BindError α × Graph} (onward : Onward ρ g ρ' g')
    (related : Mirrored base ρ' g' R a b) : Mirrored base ρ g R a b := by
  cases related with
  | ok mirrors onward' answers => exact .ok mirrors (onward.trans onward') answers
  | error => exact .error

/-- Related runs go on as related runs do. -/
theorem bind {x y : Step α} {k l : α → Step β} (first : Mirrored base ρ g R (x.run g) (y.run h))
    (rest : ∀ ρ' g' h' a b, base.Mirrors ρ' g' h' → Onward ρ g ρ' g' → R ρ' g' a b →
      Mirrored base ρ' g' S ((k a).run g') ((l b).run h')) :
    Mirrored base ρ g S ((x >>= k).run g) ((y >>= l).run h) := by
  simp only [Running.run_bind]
  generalize x.run g = a at first ⊢
  generalize y.run h = b at first ⊢
  cases first with
  | error => exact .error
  | ok mirrors onward answers => exact (rest _ _ _ _ _ mirrors onward answers).after onward

end Mirrored

namespace Registry

variable {r : Registry}

theorem child_mirrored (m : base.Mirrors ρ g h) {v : Value} (has : g.Has v) (name : String) :
    Mirrored base ρ g SameValue ((r.child v name).run g) ((r.child (v.rename ρ) name).run h) := by
  obtain ⟨ρ', step, same, valid⟩ := child_inStep (r := r) m.closed m.embeds has name
  obtain ⟨mirrors, onward⟩ := m.inStep step
  generalize (r.child v name).run g = a at *
  generalize (r.child (v.rename ρ) name).run h = b at *
  obtain ⟨answer, g'⟩ := a
  obtain ⟨answer', h'⟩ := b
  simp only at same
  subst same
  cases answer with
  | error e => exact .error
  | ok w => exact .ok mirrors onward ⟨valid w rfl, rfl⟩

/-- What is stored in a place is the same on both sides of a mirror. -/
theorem Place.store_mirrored (p : Place) (m : base.Mirrors ρ g h) {o : Object} {v : Value}
    (members : ∀ e ∈ o.members.toList, g.Has e.2) (has : g.Has v) :
    p.store (o.rename ρ) (v.rename ρ) = (p.store o v).map (Object.rename ρ) ∧
      ∀ o', p.store o v = .ok o' → ∀ e ∈ o'.members.toList, g.Has e.2 := by
  cases p with
  | setter s =>
    simp only [Place.store, s.store_mirrored m members has]
    cases stored : s.store o v with
    | error e => exact ⟨rfl, fun o' h => by cases h⟩
    | ok o' =>
      refine ⟨rfl, fun o'' h => ?_⟩
      obtain rfl : o' = o'' := Except.ok.inj h
      exact s.store_has members has stored
  | member found =>
    refine ⟨?_, fun o' h e he => ?_⟩
    · simp only [Place.store, Except.map, Object.rename, Object.setMember, Entries.map_insert]
    · obtain rfl := Except.ok.inj h
      rcases Entries.mem_insertList he with rfl | he
      · exact has
      · exact members e he

/-- Children are stored alike on both sides of a mirror. -/
theorem setChild_mirrored (m : base.Mirrors ρ g h) {owner v : Value}
    (has : g.Has owner) (has_v : g.Has v) (name : String) (hint : Option TypeTag) :
    Mirrored base ρ g Done ((r.setChild owner name v hint).run g)
      ((r.setChild (owner.rename ρ) name (v.rename ρ) hint).run h) := by
  cases owner with
  | map id =>
    obtain ⟨mirrors, onward⟩ := m.setEntry has has_v name
    exact .ok mirrors onward trivial
  | object id =>
    have members : ∀ e ∈ (g.object id).members.toList, g.Has e.2 :=
      fun e he => m.closed (.object id) e.2 has (List.mem_map_of_mem he)
    have put : ∀ o : Object, (∀ e ∈ o.members.toList, g.Has e.2) →
        base.Mirrors ρ (g.setObject id o) (h.setObject (ρ.object id) (o.rename ρ)) ∧
          Onward ρ g ρ (g.setObject id o) := fun o held =>
      m.changed (m.closed.setObject held) (m.embeds.setObject has o)
        fun w => by cases w <;> simp [Has, Graph.setObject, Store.size_set]
    simp only [setChild, Value.rename_object, Running.run_bind, Running.run_get,
      m.embeds.object_eq has]
    simp only [show ((g.object id).rename ρ).typeName = (g.object id).typeName from rfl]
    by_cases known : r.contains (g.object id).typeName
    case neg =>
      have held : ∀ e ∈ ((g.object id).setMember name v).members.toList, g.Has e.2 := by
        intro e he
        rcases Entries.mem_insertList he with rfl | he
        · exact has_v
        · exact members e he
      obtain ⟨mirrors, onward⟩ := put _ held
      simp only [Object.rename, Object.setMember, Entries.map_insert] at mirrors
      simp only [known, Bool.not_false, if_true]
      exact .ok mirrors onward trivial
    simp only [known, Bool.not_true, Bool.false_eq_true, if_false, Running.run_bind,
      Running.run_liftExcept]
    cases hplace : r.place (g.object id).typeName name hint with
    | error e => exact .error
    | ok place =>
      simp only [Value.isNull_rename]
      by_cases skipped : (v.isNull && !place.type.isNullable) = true
      · simp only [skipped, if_true]
        exact .ok m (.refl ρ g) trivial
      simp only [skipped]
      obtain ⟨same, valid⟩ := place.store_mirrored m members has_v
      rw [same]
      cases stored : place.store (g.object id) v with
      | error e => exact .error
      | ok o =>
        obtain ⟨mirrors, onward⟩ := put o (valid o stored)
        exact .ok mirrors onward trivial
  | sequence kind id => exact .error
  | _ => exact .error

end Registry

end FieldBinding
