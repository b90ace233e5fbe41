import FieldBinding.Graph.Renaming
import FieldBinding.Graph.Tree

/-!
# What an embedding preserves

An embedding carries the nodes of a graph into another one, at other addresses.  What is seen of a value without its
address is the same in both; a graph that grows is the case in which no address changes.

Main result: `Graph.contentWithin_rename` — a value has the same content on both sides of an embedding.
-/

namespace FieldBinding

/-! ## Renaming -/

namespace Value

@[simp]
theorem rename_same (v : Value) : v.rename .same = v := by
  cases v <;> rfl

@[simp]
theorem rename_null (ρ : Renaming) : Value.null.rename ρ = .null := rfl

@[simp]
theorem rename_sequence (ρ : Renaming) (kind : SequenceKind) (id : NodeId) :
    (sequence kind id).rename ρ = .sequence kind (ρ.sequence id) := rfl

@[simp]
theorem rename_map (ρ : Renaming) (id : NodeId) : (map id).rename ρ = .map (ρ.map id) := rfl

@[simp]
theorem rename_object (ρ : Renaming) (id : NodeId) :
    (object id).rename ρ = .object (ρ.object id) := rfl

@[simp]
theorem isNull_rename (ρ : Renaming) (v : Value) : (v.rename ρ).isNull = v.isNull := by
  cases v <;> rfl

@[simp]
theorem isCollection_rename (ρ : Renaming) (v : Value) :
    (v.rename ρ).isCollection = v.isCollection := by
  cases v <;> rfl

@[simp]
theorem kindName_rename (ρ : Renaming) (v : Value) : (v.rename ρ).kindName = v.kindName := by
  rcases v with _ | _ | ⟨kind, id⟩ | _ | _
  case sequence => cases kind <;> rfl
  all_goals rfl

end Value

namespace Graph

/-! ## Growth -/

namespace Extends

variable {g g' g'' : Graph}

theorem refl (g : Graph) : g.Extends g :=
  ⟨fun _ h => ⟨h, rfl⟩, fun _ h => ⟨h, rfl⟩, fun _ h => ⟨h, rfl⟩⟩

theorem trans (h : g.Extends g') (h' : g'.Extends g'') : g.Extends g'' := by
  refine ⟨fun id hid => ?_, fun id hid => ?_, fun id hid => ?_⟩
  · obtain ⟨hid', heq⟩ := h.sequences id hid
    obtain ⟨hid'', heq'⟩ := h'.sequences id hid'
    exact ⟨hid'', heq'.trans heq⟩
  · obtain ⟨hid', heq⟩ := h.maps id hid
    obtain ⟨hid'', heq'⟩ := h'.maps id hid'
    exact ⟨hid'', heq'.trans heq⟩
  · obtain ⟨hid', heq⟩ := h.objects id hid
    obtain ⟨hid'', heq'⟩ := h'.objects id hid'
    exact ⟨hid'', heq'.trans heq⟩

theorem has (h : g.Extends g') {v : Value} (hv : g.Has v) : g'.Has v := by
  cases v with
  | null => trivial
  | scalar s => trivial
  | sequence kind id => exact (h.sequences id hv).1
  | map id => exact (h.maps id hv).1
  | object id => exact (h.objects id hv).1

theorem children_eq (h : g.Extends g') {v : Value} (hv : g.Has v) : g'.children v = g.children v := by
  cases v with
  | null => rfl
  | scalar s => rfl
  | sequence kind id => simp only [children, (h.sequences id hv).2]
  | map id => simp only [children, (h.maps id hv).2]
  | object id => simp only [children, (h.objects id hv).2]

/-- A graph that grows is found inside the larger graph where it was. -/
theorem embeds (h : g.Extends g') : g.Embeds .same g' := by
  refine ⟨⟨fun id hid => ?_, fun _ _ _ _ => id⟩, ⟨fun id hid => ?_, fun _ _ _ _ => id⟩,
    ⟨fun id hid => ?_, fun _ _ _ _ => id⟩⟩
  · obtain ⟨hid', heq⟩ := h.sequences id hid
    refine ⟨hid', heq.trans ?_⟩
    simp [Sequence.rename, sequence]
  · obtain ⟨hid', heq⟩ := h.maps id hid
    refine ⟨hid', heq.trans ?_⟩
    simp [MapNode.rename, map]
  · obtain ⟨hid', heq⟩ := h.objects id hid
    refine ⟨hid', heq.trans ?_⟩
    simp [Object.rename, object]

end Extends

/-! ## Embeddings -/

section Embeds

variable {ρ : Renaming} {g h : Graph}

theorem Embeds.sequence_eq (e : g.Embeds ρ h) {id : NodeId} (hid : id < g.sequences.size) :
    h.sequence (ρ.sequence id) = (g.sequence id).rename ρ :=
  (e.sequences.node id hid).2

theorem Embeds.map_eq (e : g.Embeds ρ h) {id : NodeId} (hid : id < g.maps.size) :
    h.map (ρ.map id) = (g.map id).rename ρ :=
  (e.maps.node id hid).2

theorem Embeds.object_eq (e : g.Embeds ρ h) {id : NodeId} (hid : id < g.objects.size) :
    h.object (ρ.object id) = (g.object id).rename ρ :=
  (e.objects.node id hid).2

/-- A value has the same content on both sides of an embedding. -/
theorem contentWithin_rename (closed : g.Closed) (e : g.Embeds ρ h) (depth : Nat) {v : Value}
    (hv : g.Has v) : h.contentWithin depth (v.rename ρ) = g.contentWithin depth v := by
  induction depth generalizing v with
  | zero => cases v <;> rfl
  | succ depth ih =>
    cases v with
    | null => rfl
    | scalar s => rfl
    | sequence kind id =>
      have held : ∀ c ∈ (g.sequence id).items, g.Has c := fun c hc => closed _ c hv hc
      simp only [Value.rename_sequence, contentWithin, e.sequence_eq hv, Sequence.rename, List.map_map]
      congr 1
      exact List.map_congr_left fun c hc => ih (held c hc)
    | map id =>
      have held : ∀ e ∈ (g.map id).entries.toList, g.Has e.2 :=
        fun e he => closed _ e.2 hv (List.mem_map_of_mem he)
      simp only [Value.rename_map, contentWithin, e.map_eq hv, MapNode.rename, Entries.toList_map,
        List.map_map]
      congr 1
      exact List.map_congr_left fun c hc => by simp [ih (held c hc)]
    | object id =>
      have held : ∀ e ∈ (g.object id).members.toList, g.Has e.2 :=
        fun e he => closed _ e.2 hv (List.mem_map_of_mem he)
      simp only [Value.rename_object, contentWithin, e.object_eq hv, Object.rename, Entries.toList_map,
        List.map_map]
      congr 1
      exact List.map_congr_left fun c hc => by simp [ih (held c hc)]

end Embeds

end Graph

end FieldBinding
