import FieldBinding.Proofs.Graph.Access
import FieldBinding.Proofs.Reading.Stages
import FieldBinding.Proofs.Writing.Waiting

/-!
# Reading without types

In the empty registry a read changes nothing, and a path without wildcards is a list of accesses.  A read finds what
the accesses lead to.

Main results:

* `Stage.walk_look` — a walk without wildcards finds what its accesses lead to.
* `Registry.read_look` — a read of a path without wildcards yields it.
-/

namespace FieldBinding

open FieldBinding.Graph

/-! ## The accesses of a path -/

/-- The accesses that a segment stands for: its name, and the place in its brackets. -/
def Segment.accesses (s : Segment) : List Access :=
  s.names.map .name ++ (s.selector.slot?.map .slot).toList

theorem Segment.labels_accesses (s : Segment) : s.accesses.map Access.label = s.labels := by
  have names : s.names.map (Access.label ∘ Access.name) = s.names := List.map_id _
  rw [accesses, labels, List.map_append, List.map_map, names]
  cases s.selector.slot? <;> rfl

/-- The accesses that a path stands for. -/
def Path.accesses (p : Path) : List Access :=
  p.followed.flatMap Segment.accesses

theorem Path.labels_accesses (p : Path) : p.accesses.map Access.label = p.route := by
  rw [accesses, route, List.map_flatMap]
  exact List.flatMap_congr fun s _ => s.labels_accesses

/-! ## Walks -/

/-- A move goes where accesses lead to, or it stops where they lead to null. -/
def Move.Looks (g : Graph) (v : Value) (accesses : List Access) : Move → Prop
  | .stop _ => ∀ rest, g.look v (accesses ++ rest) = .null
  | .on w => ∀ rest, g.look v (accesses ++ rest) = g.look w rest
  | .each _ => False

namespace Registry

variable {s : Segment}

theorem behind_look (g : Graph) (single : s.isWildcard = false) (c : Value) (last : Bool) :
    (behind g s c last).Looks g c (s.selector.slot?.map Access.slot).toList := by
  unfold behind
  by_cases collection : s.isCollection
  case neg =>
    have plain : s.isCollection = false := by simpa using collection
    rw [Writer.slot?_eq_none plain]
    simp only [plain, Bool.not_false, if_true]
    exact fun rest => rfl
  obtain ⟨slot, hslot⟩ := Writer.slot?_of_single collection single
  simp only [collection, hslot, Option.map_some, Option.toList_some, Bool.not_true,
    Bool.false_eq_true, if_false]
  by_cases value : c.isNull
  · simp only [value, if_true]
    intro rest
    rw [Value.isNull_iff.1 value, Graph.look_null]
  by_cases places : c.isCollection
  case neg =>
    simp only [value, places, Bool.not_false, Bool.false_eq_true, if_true, if_false]
    refine fun rest => if_neg ?_
    cases c <;> simp_all [Access.opens, fits, Value.isCollection]
  simp only [value, places, Bool.not_true, Bool.false_eq_true, if_false]
  exact fun rest => g.look_slot c slot rest

theorem move_look (g : Graph) (single : s.isWildcard = false) (v : Value) (last : Bool) :
    (empty.move v s last g).2 = g ∧ (empty.move v s last g).1.Looks g v s.accesses := by
  by_cases value : v.isNull
  · simp only [move, value, if_true, Running.state_pure, true_and]
    intro rest
    rw [Value.isNull_iff.1 value, Graph.look_null]
  rw [move_run empty value, child_empty]
  by_cases named : s.name = ""
  · simp only [named, if_true, Segment.accesses, Segment.names_of_eq named, List.map_nil,
      List.nil_append, true_and]
    exact behind_look g single v last
  by_cases names : v.holdsNames
  case neg =>
    simp only [named, names, if_false, Bool.false_eq_true, true_and]
    intro rest
    rw [Segment.accesses, Segment.names_of_ne named]
    exact if_neg names
  have through : ∀ rest, g.look v (s.accesses ++ rest) =
      g.look ((g.slot? v s.name).getD .null)
        ((s.selector.slot?.map Access.slot).toList ++ rest) := fun rest => by
    rw [Segment.accesses, Segment.names_of_ne named]
    exact if_pos names
  have onward := behind_look g single ((g.slot? v s.name).getD .null) last
  simp only [named, names, if_false, if_true, true_and]
  cases goes : behind g s ((g.slot? v s.name).getD .null) last <;> rw [goes] at onward
  · exact fun rest => (through rest).trans (onward rest)
  · exact fun rest => (through rest).trans (onward rest)
  · exact onward

end Registry

/-- A walk without wildcards finds what the accesses lead to, and changes nothing. -/
theorem Stage.walk_look (template : Field) {t : Stage}
    (single : ∀ s ∈ t.segments, s.isWildcard = false) :
    ∃ finding : Finding, t.walk .empty template = ([finding], t.graph) ∧
      finding.field = (Registry.found template t.path
        (t.graph.look t.value (t.segments.flatMap Segment.accesses)) t.index t.graph).field := by
  generalize ahead : t.segments = segments at single
  induction segments generalizing t with
  | nil => exact ⟨_, walk_nil .empty template ahead, rfl⟩
  | cons s rest ih =>
    obtain ⟨same, looks⟩ :=
      Registry.move_look t.graph (single s List.mem_cons_self) t.value rest.isEmpty
    rw [walk_cons .empty template ahead, List.flatMap_cons]
    rcases goes : Registry.empty.move t.value s rest.isEmpty t.graph with ⟨fault | w | elements, g⟩ <;>
      rw [goes] at same looks <;> subst same
    · refine ⟨_, rfl, ?_⟩
      rw [looks, Registry.found_null]
      rfl
    · rw [looks]
      exact ih (segments_onto ahead w t.graph) fun u hu => single u (List.mem_cons_of_mem s hu)
    · exact False.elim looks

/-- A read of a path without wildcards yields what its accesses lead to, and changes nothing. -/
theorem Registry.read_look (g : Graph) {template : Field} (single : template.path.hasWildcard = false)
    {source : Value} (value : source ≠ .null) :
    ∃ f audits, (empty.read template source).run g = (.ok (.field f, audits), g) ∧
      f.value = g.look source template.path.accesses := by
  have all : ∀ s ∈ (Stage.start template source g).segments, s.isWildcard = false := by
    rw [Stage.segments_start]
    simpa using List.any_eq_false.1 (template.path.followed_single single)
  obtain ⟨finding, walk, field⟩ := Stage.walk_look template all
  rw [Stage.segments_start] at field
  refine ⟨finding.field, [finding].filterMap (·.audit?), ?_, by rw [field]; rfl⟩
  rw [read_eq_walk empty template value, walk, extracted, single]
  rfl

end FieldBinding
