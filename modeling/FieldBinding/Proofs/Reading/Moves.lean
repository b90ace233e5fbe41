import FieldBinding.Proofs.Graph.Planting
import FieldBinding.Proofs.Running

/-!
# Moves on both sides of an embedding

A move to a child, an element or an entry never looks at an address.  From a value and from its image under an
embedding it leads to a value and its image, and what a getter makes afresh is made on both sides alike.

Main results:

* `Getter.held_has` — what a getter yields as held is valid, because a getter cannot make up an address.
* `Registry.child_inStep` — moving to a child keeps in step across an embedding.
-/

namespace FieldBinding

/-! ## Getters -/

namespace Graph

/-- The renaming that moves every address but those of valid handles. -/
def shifted (g : Graph) : Renaming where
  sequence id := if id < g.sequences.size then id else id + 1
  map id := if id < g.maps.size then id else id + 1
  object id := if id < g.objects.size then id else id + 1

theorem rename_shifted_iff (g : Graph) (v : Value) : v.rename g.shifted = v ↔ g.Has v := by
  cases v with
  | null => simp [Has]
  | scalar s => simp [Value.rename, Has]
  | sequence kind id => simp [Value.rename, shifted, Has]
  | map id => simp [Value.rename, shifted, Has]
  | object id => simp [Value.rename, shifted, Has]

theorem embeds_shifted {g : Graph} (closed : g.Closed) : g.Embeds g.shifted g := by
  refine InStep.embeds_congr (fun v hv => ?_) closed (Extends.refl g).embeds
  rw [Value.rename_same, rename_shifted_iff]
  exact hv

/-- An object with valid members is not moved. -/
theorem object_rename_shifted {g : Graph} {o : Object} (members : ∀ e ∈ o.members.toList, g.Has e.2) :
    o.rename g.shifted = o := by
  have same : ∀ v, g.Has v → v.rename g.shifted = v.rename .same :=
    fun v hv => ((g.rename_shifted_iff v).2 hv).trans v.rename_same.symm
  have entries := InStep.entries_rename_congr same members
  simp only [Value.rename_same, Entries.map_self] at entries
  exact congrArg (Object.mk o.typeName) entries

end Graph

/-- A getter cannot make up a handle: it would have to know an address that no node has. -/
theorem Getter.held_has (getter : Getter) {g : Graph} {o : Object} (closed : g.Closed)
    (members : ∀ e ∈ o.members.toList, g.Has e.2) {v : Value} (held : getter.read g o = .held v) :
    g.Has v := by
  have law := getter.read_rename g.shifted g g o closed (Graph.embeds_shifted closed) members
  rw [Graph.object_rename_shifted members, held, Yield.rename, Yield.held.injEq] at law
  exact (g.rename_shifted_iff v).1 law.symm

/-! ## Single moves -/

section Moves

variable {r : Registry} {ρ : Renaming} {g h : Graph}

theorem rawMember_rename (ρ : Renaming) (o : Object) (name : String) :
    Registry.rawMember (o.rename ρ) name = (Registry.rawMember o name).rename ρ := by
  simp only [Registry.rawMember, Object.rename, Entries.get?_map]
  cases o.members.get? name <;> rfl

/-- Looking for a child leads to the same place on both sides of an embedding. -/
theorem yieldAt_rename (closed : g.Closed) (embeds : g.Embeds ρ h) {v : Value} (has : g.Has v)
    (name : String) :
    r.yieldAt h (v.rename ρ) name = (r.yieldAt g v name).map (Yield.rename ρ) := by
  unfold Registry.yieldAt
  split
  · rfl
  cases v with
  | null => rfl
  | scalar s => rfl
  | sequence kind id =>
    cases kind <;> rfl
  | map id =>
    simp only [Value.rename_map, embeds.map_eq has, MapNode.rename, Entries.get?_map]
    cases (g.map id).entries.get? name <;> rfl
  | object id =>
    have members : ∀ e ∈ (g.object id).members.toList, g.Has e.2 :=
      fun e he => closed (.object id) e.2 has (List.mem_map_of_mem he)
    simp only [Value.rename_object, embeds.object_eq has, rawMember_rename]
    simp only [show ((g.object id).rename ρ).typeName = (g.object id).typeName from rfl]
    split
    · rfl
    cases r.getter? (g.object id).typeName name with
    | some getter => exact congrArg Except.ok (getter.read_rename ρ g h _ closed embeds members)
    | none => cases r.member? (g.object id).typeName name <;> rfl

theorem getD_has {m : Entries Value} (valid : ∀ e ∈ m.toList, g.Has e.2) (key : String) :
    g.Has ((m.get? key).getD .null) := by
  cases found : m.get? key with
  | none => trivial
  | some v => exact valid _ (Entries.mem_of_get? found)

/-- What a value holds is valid. -/
theorem yieldAt_has (closed : g.Closed) {v w : Value} (has : g.Has v) {name : String}
    (held : r.yieldAt g v name = .ok (.held w)) : g.Has w := by
  unfold Registry.yieldAt at held
  split at held
  · cases held
    exact has
  cases v with
  | map id =>
    cases held
    exact getD_has (fun e he => closed (.map id) e.2 has (List.mem_map_of_mem he)) name
  | object id =>
    have members : ∀ e ∈ (g.object id).members.toList, g.Has e.2 :=
      fun e he => closed (.object id) e.2 has (List.mem_map_of_mem he)
    simp only at held
    split at held
    · cases held
      exact getD_has members name
    cases hgetter : r.getter? (g.object id).typeName name with
    | some getter =>
      simp only [hgetter, Except.ok.injEq] at held
      exact getter.held_has closed members held
    | none =>
      cases hmember : r.member? (g.object id).typeName name with
      | some m =>
        simp only [hgetter, hmember] at held
        cases held
        exact getD_has members m.name
      | none =>
        simp only [hgetter, hmember] at held
        cases held
  | _ => cases held

/-- Moving to a child keeps in step across an embedding. -/
theorem child_inStep (closed : g.Closed) (embeds : g.Embeds ρ h) {v : Value} (has : g.Has v)
    (name : String) :
    let x := (r.child v name).run g
    let y := (r.child (v.rename ρ) name).run h
    ∃ ρ', Graph.InStep ρ g ρ' x.2 y.2 ∧ y.1 = x.1.map (Value.rename ρ') ∧
      ∀ w, x.1 = .ok w → x.2.Has w := by
  intro x y
  simp only [x, y, Registry.child_run, yieldAt_rename closed embeds has]
  cases hyield : r.yieldAt g v name with
  | error e => exact ⟨ρ, .refl closed embeds, rfl, by simp⟩
  | ok yielded =>
    cases yielded with
    | held w =>
      refine ⟨ρ, .refl closed embeds, rfl, ?_⟩
      rintro _ ⟨rfl⟩
      exact yieldAt_has closed has hyield
    | fresh content =>
      obtain ⟨ρ', step, valid, same⟩ := Graph.plant_inStep content ρ g h closed embeds
      refine ⟨ρ', step, congrArg Except.ok same, ?_⟩
      rintro _ ⟨rfl⟩
      exact valid

/-! ## Elements -/

theorem elementAt_rename (embeds : g.Embeds ρ h) {v : Value} (has : g.Has v) (slot : Slot) :
    h.elementAt (v.rename ρ) slot = (g.elementAt v slot).rename ρ := by
  cases v with
  | sequence kind id =>
    cases slot with
    | index n =>
      simp only [Value.rename_sequence, Graph.elementAt, embeds.sequence_eq has, Sequence.rename,
        List.getElem?_map]
      cases (g.sequence id).items[n]? <;> rfl
    | key key => rfl
  | map id =>
    cases slot with
    | index n =>
      simp only [Value.rename_map, Graph.elementAt, embeds.map_eq has, MapNode.rename,
        Entries.get?_map]
      cases (g.map id).entries.get? (Numeral.text n) <;> rfl
    | key key =>
      simp only [Value.rename_map, Graph.elementAt, embeds.map_eq has, MapNode.rename,
        Entries.get?_map]
      cases (g.map id).entries.get? key <;> rfl
  | _ => rfl

theorem elementAt_has (closed : g.Closed) {v : Value} (has : g.Has v) (slot : Slot) :
    g.Has (g.elementAt v slot) := by
  cases v with
  | sequence kind id =>
    cases slot with
    | index n =>
      show g.Has (((g.sequence id).items[n]?).getD .null)
      cases found : (g.sequence id).items[n]? with
      | none => trivial
      | some w => exact closed (.sequence kind id) w has (List.mem_of_getElem? found)
    | key key => trivial
  | map id =>
    have valid : ∀ e ∈ (g.map id).entries.toList, g.Has e.2 :=
      fun e he => closed (.map id) e.2 has (List.mem_map_of_mem he)
    cases slot with
    | index n => exact getD_has valid _
    | key key => exact getD_has valid _
  | _ => trivial

theorem elements_rename (embeds : g.Embeds ρ h) {v : Value} (has : g.Has v) :
    h.elements (v.rename ρ) = (g.elements v).map fun e => (e.1, e.2.rename ρ) := by
  cases v with
  | sequence kind id =>
    simp only [Value.rename_sequence, Graph.elements, embeds.sequence_eq has, Sequence.rename,
      List.zipIdx_map, List.map_map]
    rfl
  | map id =>
    simp only [Value.rename_map, Graph.elements, embeds.map_eq has, MapNode.rename,
      Entries.toList_map, List.map_map]
    rfl
  | _ => rfl

theorem elements_has (closed : g.Closed) {v : Value} (has : g.Has v) {e : Slot × Value}
    (he : e ∈ g.elements v) : g.Has e.2 := by
  cases v with
  | sequence kind id =>
    obtain ⟨e', he', rfl⟩ := List.mem_map.1 he
    exact closed (.sequence kind id) e'.1 has (List.fst_mem_of_mem_zipIdx he')
  | map id =>
    obtain ⟨e', he', rfl⟩ := List.mem_map.1 he
    exact closed (.map id) e'.2 has (List.mem_map_of_mem he')
  | _ => simp [Graph.elements] at he

end Moves

end FieldBinding
