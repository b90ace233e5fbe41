import FieldBinding.Proofs.Graph.Change
import FieldBinding.Proofs.Path.WellFormed
import FieldBinding.Proofs.Reading.Places
import FieldBinding.Proofs.Registry.Bean

/-!
# Trails

A `Registry.Trail` says that a reader who follows some segments from a value arrives at another without meeting
an obstacle.  The writer leaves a trail behind: wherever it has come to, a reader who follows the same segments
comes to the same place.

Main results:

* `Registry.Trail.read` — a reader at the end of a trail finds one value, and has nothing to remark.
* `Registry.Trail.kept` — a change of a node that is found from the end of a trail leaves the trail as it is, in
  a graph without cycles.
-/

namespace FieldBinding.Registry

/-- A segment leads from a value to the one value that it stands for. -/
structure Leads (r : Registry) (g : Graph) (v : Value) (s : Segment) (w : Value) : Prop where
  value : v ≠ .null
  single : s.isWildcard = false
  arrives : ∃ c, r.yieldAt g v s.name = .ok (.held c) ∧ selected g s c = some [w]

/-- Segments lead from one value to another, one by one. -/
inductive Trail (r : Registry) (g : Graph) : Value → List Segment → Value → Prop where
  | here (v : Value) : Trail r g v [] v
  | step {v w u : Value} {s : Segment} {rest : List Segment} (first : r.Leads g v s w)
      (others : Trail r g w rest u) : Trail r g v (s :: rest) u

variable {r : Registry} {g g' : Graph}

theorem Trail.snoc {v w u : Value} {s : Segment} {segments : List Segment}
    (trail : r.Trail g v segments w) (last : r.Leads g w s u) : r.Trail g v (segments ++ [s]) u := by
  induction trail with
  | here v => exact .step last (.here u)
  | step first _ ih => exact .step first (ih last)

/-! ## Reading at the end of a trail -/

theorem Leads.follow {v w : Value} {s : Segment} (leads : r.Leads g v s w) (template : Field)
    (path : Path) (position : Nat) (index : Option Nat) (rest : List Segment) :
    r.follow template path v position index (s :: rest) g =
      r.follow template path w (position + 1) index rest g := by
  obtain ⟨value, single, c, arrives, place⟩ := leads
  have notNull : v.isNull = false := Value.isNull_eq_false_iff.2 value
  have child := child_of_held arrives
  simp only [Registry.follow, notNull, Bool.false_eq_true, if_false, Running.state_bind, child]
  unfold selected at place
  by_cases collection : s.isCollection
  · by_cases places : c.isCollection
    · have cNotNull : c.isNull = false :=
        Value.isNull_eq_false_iff.2 (Value.ne_null_of_isCollection places)
      obtain ⟨slot, hslot⟩ : ∃ slot, s.selector.slot? = some slot := by
        simpa [Segment.isWildcard, collection, Segment.isIndexed, Option.isSome_iff_exists] using single
      simp only [collection, places, hslot, Bool.not_true, Bool.false_eq_true, if_false,
        Option.some.injEq, List.cons.injEq, and_true] at place
      simp only [collection, places, cNotNull, hslot, place, Bool.not_true, Bool.false_eq_true,
        if_false, Running.state_bind, Running.state_get]
    · simp [collection, places] at place
  · simp only [collection, Bool.not_false, if_true, Option.some.injEq, List.cons.injEq,
      and_true] at place
    simp only [collection, Bool.not_false, if_true, place]

theorem Trail.follow {v w : Value} {segments : List Segment} (trail : r.Trail g v segments w)
    (template : Field) (path : Path) (position : Nat) (index : Option Nat) :
    r.follow template path v position index segments g = ([found template path w index g], g) := by
  induction trail generalizing position with
  | here v => rfl
  | step first _ ih => rw [first.follow, ih]

/-- A reader at the end of a trail finds one value, and has nothing to remark. -/
theorem Trail.read {source v : Value} {template : Field} (single : template.path.hasWildcard = false)
    (value : source ≠ .null) (trail : r.Trail g source template.path.followed v) :
    (r.read template source).run g =
      (.ok (.field (found template template.path v none g).field, []), g) := by
  have notNull : source.isNull = false := Value.isNull_eq_false_iff.2 value
  have found : r.findings template source g = ([found template template.path v none g], g) := by
    unfold findings
    unfold Path.followed at trail
    split at trail
    · next bracketed => rw [if_pos bracketed, trail.follow]
    · next plain => rw [if_neg plain, trail.follow]
  simp only [Registry.read, notNull, Bool.false_eq_true, if_false, Running.run_bind,
    Running.run_monadLift, found, extracted, single]
  rfl

/-! ## Changes behind the end of a trail -/

theorem selected_congr {s : Segment} {c : Value} (h : g'.node c = g.node c) :
    selected g' s c = selected g s c := by
  simp only [selected, Graph.elementAt_congr h, Graph.elements_congr h]

/-- Behind the brackets of a segment there is the child itself, or one of the values that it holds. -/
theorem mem_children_of_selected {s : Segment} {c w : Value} (single : s.isWildcard = false)
    (h : selected g s c = some [w]) (value : w ≠ .null) :
    (s.isCollection = false ∧ w = c) ∨ (s.isCollection ∧ w ∈ g.children c) := by
  unfold selected at h
  by_cases collection : s.isCollection
  case neg =>
    simp only [collection, Bool.not_false, if_true, Option.some.injEq, List.cons.injEq, and_true] at h
    exact .inl ⟨by simpa using collection, h.symm⟩
  refine .inr ⟨collection, ?_⟩
  obtain ⟨slot, hslot⟩ : ∃ slot, s.selector.slot? = some slot := by
    simpa [Segment.isWildcard, collection, Segment.isIndexed, Option.isSome_iff_exists] using single
  by_cases places : c.isCollection
  · simp only [collection, places, hslot, Bool.not_true, Bool.false_eq_true, if_false,
      Option.some.injEq, List.cons.injEq, and_true] at h
    exact Graph.mem_children_of_elementAt h value
  · simp [collection, places] at h

section Bean

variable (bean : r.Bean)

include bean

/-- A segment that is written down leads strictly below, and so does its part behind the name. -/
theorem Leads.below {v w : Value} {s : Segment} (leads : r.Leads g v s w) (written : s.Written)
    (value : w ≠ .null) : g.Below v w := by
  obtain ⟨-, single, c, arrives, place⟩ := leads
  rcases mem_children_of_selected single place value with ⟨plain, rfl⟩ | ⟨collection, child⟩
  · have named : s.name ≠ "" := fun h => by simp [written h] at plain
    exact .single (bean.mem_children_of_yieldAt named arrives value)
  · by_cases named : s.name = ""
    · simp only [yieldAt, named, if_true, Except.ok.injEq, Yield.held.injEq] at arrives
      exact .single (arrives ▸ child)
    · have cValue : c ≠ .null := by
        rintro rfl
        simp [Graph.children] at child
      exact .tail (.single (bean.mem_children_of_yieldAt named arrives cValue)) child

/-- A step does not see a change behind its end. -/
theorem Leads.kept {v w x : Value} {s : Segment} (leads : r.Leads g v s w) (written : s.Written)
    (closed : g.Closed) (has : g.Has v) (acyclic : g.Acyclic v) (value : w ≠ .null)
    (kept : g.SameBut g' x) (behind : g.Reaches w x) : r.Leads g' v s w := by
  have below := leads.below bean written value
  obtain ⟨notNull, single, c, arrives, place⟩ := leads
  -- the change is strictly below the value, so it does not touch its node
  have apart : v.address? ≠ x.address? := (acyclic.address_ne (below.trans_left behind)).symm
  have arrives' : r.yieldAt g' v s.name = .ok (.held c) := by
    rw [bean.yieldAt_congr (kept v has apart), arrives]
  refine ⟨notNull, single, c, arrives', ?_⟩
  rcases mem_children_of_selected single place value with ⟨plain, rfl⟩ | ⟨collection, child⟩
  · simp [selected, plain]
  · have reached : g.Reaches v c := by
      by_cases named : s.name = ""
      · simp only [yieldAt, named, if_true, Except.ok.injEq, Yield.held.injEq] at arrives
        exact arrives ▸ .refl
      · have cValue : c ≠ .null := by
          rintro rfl
          simp [Graph.children] at child
        exact .single (bean.mem_children_of_yieldAt named arrives cValue)
    have apart' : c.address? ≠ x.address? :=
      ((acyclic.of_reaches reached).address_ne (.head' child behind)).symm
    rw [selected_congr (kept c (reached.has closed has) apart'), place]

omit bean in
theorem Trail.start_ne_null {v w : Value} {segments : List Segment} (trail : r.Trail g v segments w)
    (value : w ≠ .null) : v ≠ .null := by
  cases trail with
  | here => exact value
  | step first _ => exact first.value

theorem Trail.reaches {v w : Value} {segments : List Segment} (trail : r.Trail g v segments w)
    (written : ∀ s ∈ segments, s.Written) (value : w ≠ .null) : g.Reaches v w := by
  induction trail with
  | here => exact .refl
  | step first others ih =>
    have below := first.below bean (written _ List.mem_cons_self) (others.start_ne_null value)
    exact below.to_reflTransGen.trans (ih (fun s hs => written s (List.mem_cons_of_mem _ hs)) value)

/-- A change of a node that is found from the end of a trail leaves the trail as it is. -/
theorem Trail.kept {v w x : Value} {segments : List Segment} (trail : r.Trail g v segments w)
    (written : ∀ s ∈ segments, s.Written) (closed : g.Closed) (has : g.Has v)
    (acyclic : g.Acyclic v) (value : w ≠ .null) (kept : g.SameBut g' x) (behind : g.Reaches w x) :
    r.Trail g' v segments w := by
  induction trail with
  | here => exact .here _
  | step first others ih =>
    have written_first := written _ List.mem_cons_self
    have written_others := fun s hs => written s (List.mem_cons_of_mem _ hs)
    have start := others.start_ne_null value
    have reached : g.Reaches _ _ := (first.below bean written_first start).to_reflTransGen
    exact .step
      (first.kept bean written_first closed has acyclic start kept
        ((others.reaches bean written_others value).trans behind))
      (ih written_others (reached.has closed has) (acyclic.of_reaches reached) value behind)

end Bean

end FieldBinding.Registry
