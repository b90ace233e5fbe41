import FieldBinding.Proofs.Reading.Stages

/-!
# Remarks of a read

A warning belongs to a place that cannot be reached, and such a place shows null.  So a read that finds a value at
every place leaves no remark.

Main results:

* `Registry.follow_warned` — a finding with a warning is null.
* `Registry.read_silent` — a group without nulls is read without remarks.
-/

namespace FieldBinding

/-- What a list of runs yields has been yielded by one of them. -/
theorem mem_joinM {σ α β : Type} {f : α → StateM σ (List β)} {l : List α} {s : σ} {b : β}
    (mem : b ∈ (joinM f l s).1) : ∃ a ∈ l, ∃ s', b ∈ (f a s').1 := by
  induction l generalizing s with
  | nil => cases mem
  | cons a rest ih =>
    rw [joinM_cons, List.mem_append] at mem
    rcases mem with first | later
    · exact ⟨a, List.mem_cons_self, s, first⟩
    · obtain ⟨c, hc, s', found⟩ := ih later
      exact ⟨c, List.mem_cons_of_mem a hc, s', found⟩

namespace Registry

variable {r : Registry} {template : Field}

/-- A finding with a warning is null. -/
theorem follow_warned {segments : List Segment} {path : Path} {current : Value} {position : Nat} {index : Option Nat}
    {g : Graph} {f : Finding} (mem : f ∈ (r.follow template path current position index segments g).1)
    (warned : f.warning ≠ none) : f.field.value = .null := by
  induction segments generalizing path current position index g with
  | nil =>
    obtain rfl : f = found template path current index g := List.mem_singleton.1 mem
    exact absurd rfl warned
  | cons segment rest ih =>
    rw [follow_cons] at mem
    rcases goes : r.move current segment rest.isEmpty g with ⟨fault | v | elements, g'⟩ <;> rw [goes] at mem
    · obtain rfl : f = halted template path index fault := List.mem_singleton.1 mem
      rfl
    · exact ih mem
    · obtain ⟨⟨⟨slot, v⟩, k⟩, -, g'', later⟩ := mem_joinM mem
      cases put : path.withSlotAt position slot with
      | ok concrete =>
        simp only [followAt, put] at later
        exact ih later
      | error e =>
        simp only [followAt, put] at later
        cases later

/-- A group without nulls is read without remarks. -/
theorem read_silent {source : Value} {group : FieldGroup} {audits : List Audit} {g g' : Graph}
    (read : (r.read template source).run g = (.ok (.group group, audits), g'))
    (values : ∀ v ∈ group.values, v ≠ .null) : audits = [] := by
  by_cases null : source = .null
  · subst null
    cases read
  rw [read_eq_walk r template null, ← Stage.findings_eq_walk] at read
  obtain ⟨whole, rfl⟩ := Prod.mk.inj (Except.ok.inj (Prod.mk.inj read).1)
  refine List.filterMap_eq_nil_iff.2 fun f mem => ?_
  have value : f.field.value ≠ .null := by
    refine values _ ?_
    unfold extracted at whole
    split at whole
    · cases whole
      exact List.mem_map_of_mem (List.mem_map_of_mem mem)
    · cases whole
  have silent : f.warning = none := by
    by_contra warned
    refine value ?_
    unfold findings at mem
    split at mem <;> exact follow_warned mem warned
  rw [Finding.audit?, silent, Option.map_none]

end Registry

end FieldBinding
