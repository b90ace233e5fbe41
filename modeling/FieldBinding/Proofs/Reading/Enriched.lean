import FieldBinding.Proofs.Graph.Enriching
import FieldBinding.Proofs.Writing.Preparing

/-!
# Reading an enriched document

A reader of one place follows a trail, and a trail does not go through null.  So the trail is still there after
the document has been enriched: it leads to the same value, or to a longer array where there was an array.  This
holds however the nodes are shared.

Main results:

* `Registry.Trail.of_read` — a single value that is read, and is not null, is at the end of a trail.
* `Registry.Trail.enriched` — a trail is found again in an enriched graph.
-/

namespace FieldBinding.Registry

open FieldBinding.Graph

variable {r : Registry} {g g' : Graph}

section Bean

variable (bean : r.Bean)

include bean

/-! ## The trail of a reader -/

theorem Trail.of_reached {v w : Value} {segments : List Segment}
    (single : segments.any Segment.isWildcard = false) (value : w ≠ .null)
    (h : (r.reached v segments g).1 = [w]) : r.Trail g v segments w := by
  induction segments generalizing v with
  | nil =>
    obtain rfl : v = w := by simpa [reached] using h
    exact .here v
  | cons s rest ih =>
    rw [List.any_cons, Bool.or_eq_false_iff] at single
    by_cases null : v.isNull
    · cases v <;> simp [Value.isNull] at null
      rw [reached_null] at h
      exact absurd (List.singleton_inj.1 h).symm value
    rw [reached_cons, entered_run r null, child_run] at h
    cases hyield : r.yieldAt g v s.name with
    | error e =>
      simp only [hyield] at h
      exact absurd (List.singleton_inj.1 h).symm value
    | ok y =>
      obtain ⟨c, rfl⟩ := bean.yieldAt_held hyield
      simp only [hyield, Step.ofYield_held] at h
      cases hplace : selected g s c with
      | none =>
        simp only [hplace] at h
        exact absurd (List.singleton_inj.1 h).symm value
      | some values =>
        -- brackets without a wildcard stand for one place
        obtain ⟨u, rfl⟩ : ∃ u, values = [u] := by
          unfold selected at hplace
          split at hplace
          · exact ⟨c, (Option.some.inj hplace).symm⟩
          split at hplace
          · cases hplace
          split at hplace
          · exact ⟨_, (Option.some.inj hplace).symm⟩
          · simp_all [Segment.isWildcard, Segment.isIndexed]
        simp only [hplace, joinM_singleton] at h
        exact .step ⟨fun v_null => null (v_null ▸ rfl), single.1, c, hyield, hplace⟩ (ih single.2 h)

/-- A single value that is read, and is not null, is at the end of a trail. -/
theorem Trail.of_read {source : Value} {template f : Field} {audits : List Audit} {g₁ : Graph}
    (single : template.path.hasWildcard = false)
    (h : (r.read template source).run g = (.ok (.field f, audits), g₁)) (value : f.value ≠ .null) :
    source ≠ .null ∧ r.Trail g source template.path.followed f.value := by
  have source_value : source ≠ .null := by
    rintro rfl
    cases h
  obtain ⟨e, audits', run, values⟩ := r.read_values template source_value g
  rw [run] at h
  obtain ⟨rfl, rfl⟩ := Prod.mk.inj (Except.ok.inj (Prod.mk.inj h).1)
  exact ⟨source_value, .of_reached bean (template.path.followed_single single) value values.symm⟩

/-! ## Trails in enriched graphs -/

variable {room : Prop} (roomy : room) (enriches : g.Enriches g' room)

include roomy enriches

/-- A child is found again. -/
theorem yieldAt_enriched {v v' c : Value} {name : String} (closed : g.Closed) (has : g.Has v)
    (became : g.Became g' v v') (arrives : r.yieldAt g v name = .ok (.held c)) (value : c ≠ .null) :
    g.Has c ∧ ∃ c', r.yieldAt g' v' name = .ok (.held c') ∧ g.Became g' c c' := by
  by_cases named : name = ""
  · simp only [yieldAt, named, if_true, Except.ok.injEq, Yield.held.injEq] at arrives ⊢
    subst arrives
    exact ⟨has, v', rfl, became⟩
  obtain ⟨names, label, slot⟩ := bean.yieldAt_slot named arrives
  rw [slot g rfl, Except.ok.injEq, Yield.held.injEq] at arrives
  cases became with
  | longer => simp [Value.holdsNames] at names
  | same =>
    cases held : g.slot? v label with
    | none => exact absurd (by simpa [held] using arrives.symm) value
    | some u =>
      rw [held, Option.getD_some] at arrives
      subst arrives
      obtain ⟨u', held', null | ⟨became, -⟩⟩ := enriches.slots roomy v label u has held
      · exact absurd null value
      · refine ⟨closed.has_of_slot? has held, u', ?_, became⟩
        rw [slot g' (enriches.kind v has), held', Option.getD_some]

omit bean in
/-- An element is found again. -/
theorem elementAt_enriched {c c' w : Value} {slot : Slot} (closed : g.Closed) (has : g.Has c)
    (became : g.Became g' c c') (element : g.elementAt c slot = w) (value : w ≠ .null) :
    g.Has w ∧ ∃ w', g'.elementAt c' slot = w' ∧ g.Became g' w w' := by
  rw [elementAt_eq] at element
  split at element
  case isFalse => exact absurd element.symm value
  next hfits =>
  cases held : g.slot? c (Graph.label slot) with
  | none => exact absurd (by simpa [held] using element.symm) value
  | some u =>
    rw [held, Option.getD_some] at element
    subst element
    refine ⟨closed.has_of_slot? has held, ?_⟩
    cases became with
    | same =>
      obtain ⟨u', held', null | ⟨became, -⟩⟩ := enriches.slots roomy c _ u has held
      · exact absurd null value
      · exact ⟨u', by rw [elementAt_eq, if_pos hfits, held', Option.getD_some], became⟩
    | @longer id id' has' keeps =>
      obtain ⟨u', held', null | rfl⟩ := keeps _ u held
      · exact absurd null value
      · have hfits' : fits (.sequence .array id') slot := by cases slot <;> exact hfits
        exact ⟨u', by rw [elementAt_eq, if_pos hfits', held', Option.getD_some], .same u'⟩

/-- What a segment leads to is found again. -/
theorem Leads.enriched {v v' w : Value} {s : Segment} (leads : r.Leads g v s w) (closed : g.Closed)
    (has : g.Has v) (became : g.Became g' v v') (value : w ≠ .null) :
    g.Has w ∧ ∃ w', r.Leads g' v' s w' ∧ g.Became g' w w' := by
  obtain ⟨v_value, single, c, arrives, place⟩ := leads
  have v'_value := became.ne_null v_value
  by_cases collection : s.isCollection
  case neg =>
    have plain : s.isCollection = false := by simpa using collection
    obtain rfl : c = w := by simpa [selected, plain] using place
    obtain ⟨has_c, c', arrives', became'⟩ :=
      yieldAt_enriched bean roomy enriches closed has became arrives value
    exact ⟨has_c, c', Writer.leads_of_child v'_value plain arrives', became'⟩
  obtain ⟨slot, hslot⟩ := Writer.slot?_of_single collection single
  have element : g.elementAt c slot = w := by
    unfold selected at place
    by_cases places : c.isCollection
    · simpa [collection, places, hslot] using place
    · simp [collection, places] at place
  have c_value : c ≠ .null := by
    rintro rfl
    exact value (by cases slot <;> exact element.symm)
  obtain ⟨has_c, c', arrives', became_c⟩ :=
    yieldAt_enriched bean roomy enriches closed has became arrives c_value
  obtain ⟨has_w, w', element', became_w⟩ :=
    elementAt_enriched roomy enriches closed has_c became_c element value
  exact ⟨has_w, w', Writer.leads_of_elementAt v'_value collection single hslot arrives' element'
    (became_w.ne_null value), became_w⟩

/-- A trail is found again in an enriched graph. -/
theorem Trail.enriched {v v' w : Value} {segments : List Segment} (trail : r.Trail g v segments w)
    (closed : g.Closed) (has : g.Has v) (became : g.Became g' v v') (value : w ≠ .null) :
    g.Has w ∧ ∃ w', r.Trail g' v' segments w' ∧ g.Became g' w w' := by
  induction trail generalizing v' with
  | here v => exact ⟨has, v', .here v', became⟩
  | step first others ih =>
    obtain ⟨has_u, u', leads, became_u⟩ :=
      first.enriched bean roomy enriches closed has became (others.start_ne_null value)
    obtain ⟨has_w, w', trail, became_w⟩ := ih has_u became_u value
    exact ⟨has_w, w', .step leads trail, became_w⟩

end Bean

end FieldBinding.Registry
