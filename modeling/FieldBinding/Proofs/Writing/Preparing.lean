import FieldBinding.Proofs.Writing.Enriching

/-!
# Preparing leaves a trail

The writer walks down a path, changes what is in its way, and comes to the owner of the last segment.  What it
did near the root has to survive what it does further down.  `Registry.OnTrail` is the invariant of the walk:
the graph below the root has no cycle, and a reader who follows the segments that are done comes to where the
writer is.

Main results:

* `Writer.ownerFrom_onTrail` — the walk keeps the invariant, for every segment but the last.
* `Writer.prepare_onTrail` — after preparing, a trail leads from the root to the owner.
-/

namespace FieldBinding

open FieldBinding.Graph

variable {r : Registry} {g g' : Graph}

/-- A writer has come down from a root to a value: a trail leads there, in a graph without cycles. -/
structure Registry.OnTrail (r : Registry) (g : Graph) (root : Value) (done : List Segment)
    (v : Value) : Prop where
  closed : g.Closed
  has : g.Has root
  acyclic : g.Acyclic root
  written : ∀ s ∈ done, s.Written
  trail : r.Trail g root done v
  value : v ≠ .null

namespace Registry.OnTrail

variable {root v w : Value} {done : List Segment}

theorem start (closed : g.Closed) (has : g.Has root) (acyclic : g.Acyclic root)
    (value : root ≠ .null) : r.OnTrail g root [] root :=
  ⟨closed, has, acyclic, by simp, .here root, value⟩

/-- One segment further. -/
theorem step (on : r.OnTrail g root done v) {s : Segment} (written : s.Written)
    (leads : r.Leads g v s w) (value : w ≠ .null) : r.OnTrail g root (done ++ [s]) w where
  closed := on.closed
  has := on.has
  acyclic := on.acyclic
  written t ht := by
    rcases List.mem_append.1 ht with ht | ht
    · exact on.written t ht
    · exact List.mem_singleton.1 ht ▸ written
  trail := on.trail.snoc leads
  value := value

section Bean

variable (bean : r.Bean)

include bean

theorem reaches (on : r.OnTrail g root done v) : g.Reaches root v :=
  on.trail.reaches bean on.written on.value

theorem has_end (on : r.OnTrail g root done v) : g.Has v :=
  (on.reaches bean).has on.closed on.has

theorem acyclic_end (on : r.OnTrail g root done v) : g.Acyclic v :=
  on.acyclic.of_reaches (on.reaches bean)

/-- The writer stays on its trail when it changes a node that it can reach from where it is. -/
theorem change (on : r.OnTrail g root done v) {x : Value} (change : g.Change g' x)
    (behind : g.Reaches v x) : r.OnTrail g' root done v where
  closed := change.closed
  has := change.has root on.has
  acyclic := change.acyclic root on.has on.acyclic
  written := on.written
  trail := on.trail.kept bean on.written on.closed on.has on.acyclic on.value change.kept behind
  value := on.value

end Bean

end Registry.OnTrail

namespace Writer

/-- A segment with brackets leads to the element at its place. -/
theorem leads_of_elementAt {v c w : Value} {s : Segment} {slot : Slot} (value : v ≠ .null)
    (collection : s.isCollection) (single : s.isWildcard = false)
    (hslot : s.selector.slot? = some slot) (arrives : r.yieldAt g v s.name = .ok (.held c))
    (element : g.elementAt c slot = w) (found : w ≠ .null) : r.Leads g v s w := by
  have hfits : fits c slot := by
    by_contra no
    rw [elementAt_eq, if_neg no] at element
    exact found element.symm
  refine ⟨value, single, c, arrives, ?_⟩
  simp [Registry.selected, collection, isCollection_of_fits hfits, hslot, element]

/-- A plain segment leads to the child of its name. -/
theorem leads_of_child {v c : Value} {s : Segment} (value : v ≠ .null)
    (plain : s.isCollection = false) (arrives : r.yieldAt g v s.name = .ok (.held c)) :
    r.Leads g v s c :=
  ⟨value, by simp [Segment.isWildcard, plain], c, arrives, by simp [Registry.selected, plain]⟩

section Bean

variable (bean : r.Bean)

include bean

/-- The writer stays where it is when it asks for a collection. -/
theorem collect_onTrail {path : Path} {root v c : Value} {done : List Segment} {s : Segment} {next : Option Segment}
    (on : r.OnTrail g root done v) (h : (collect r path v s next).run g = (.ok c, g')) :
    r.OnTrail g' root done v ∧ r.yieldAt g' v s.name = .ok (.held c) ∧ c ≠ .null := by
  obtain ⟨child, g₁, made, grown⟩ := Running.run_bind_ok h
  obtain ⟨change, arrives, child_value⟩ := childOrCreate_made bean on.closed (on.has_end bean) on.value made
  have on₁ := on.change bean change .refl
  obtain ⟨x, behind, change₁, arrives₁, c_value⟩ :=
    grow_made bean on₁.closed (on₁.has_end bean) (on₁.acyclic_end bean) arrives child_value grown
  exact ⟨on₁.change bean change₁ behind, arrives₁, c_value⟩

/-- A segment that is passed lengthens the trail. -/
theorem pass_onTrail {path : Path} {root v w : Value} {done : List Segment} {s : Segment} {next : Option Segment}
    (written : s.Written) (single : s.isWildcard = false) (on : r.OnTrail g root done v)
    (h : (pass r path v s next).run g = (.ok w, g')) : r.OnTrail g' root (done ++ [s]) w := by
  by_cases bracketed : s.isCollection
  case neg =>
    have plain : s.isCollection = false := by simpa using bracketed
    rw [pass_of_plain plain] at h
    obtain ⟨change, arrives, w_value⟩ := childOrCreate_made bean on.closed (on.has_end bean) on.value h
    exact (on.change bean change .refl).step written (leads_of_child on.value plain arrives) w_value
  rw [pass_of_collection bracketed] at h
  obtain ⟨c, g₁, collected, filled⟩ := Running.run_bind_ok h
  obtain ⟨on₁, arrives, c_value⟩ := collect_onTrail bean on collected
  obtain ⟨slot, hslot⟩ := slot?_of_single bracketed single
  have reached := reaches_of_yieldAt bean arrives c_value
  obtain ⟨change, element, w_value⟩ :=
    elementOrCreate_made on₁.closed (reached.has on₁.closed (on₁.has_end bean)) hslot filled
  have arrives₂ :=
    yieldAt_kept bean arrives (on₁.has_end bean) (on₁.acyclic_end bean) c_value change.kept
  exact (on₁.change bean change reached).step written
    (leads_of_elementAt on.value bracketed single hslot arrives₂ element w_value) w_value

/-- The walk keeps to its trail, for every segment but the last. -/
theorem ownerFrom_onTrail {path : Path} {root v owner : Value} {done segments : List Segment}
    (written : ∀ s ∈ segments, s.Written) (single : ∀ s ∈ segments, s.isWildcard = false)
    (on : r.OnTrail g root done v)
    (h : (ownerFrom r path v segments).run g = (.ok owner, g')) :
    r.OnTrail g' root (done ++ segments.dropLast) owner := by
  induction segments generalizing v g done with
  | nil =>
    cases h
    simpa using on
  | cons s rest ih =>
    by_cases last : rest = []
    · subst last
      rw [ownerFrom_last] at h
      split at h
      · obtain ⟨c, g₁, collected, stops⟩ := Running.run_bind_ok h
        cases stops
        simpa using (collect_onTrail bean on collected).1
      · cases h
        simpa using on
    rw [ownerFrom_cons last] at h
    obtain ⟨w, g₁, passed, goes⟩ := Running.run_bind_ok h
    have on₁ := pass_onTrail bean (written s List.mem_cons_self) (single s List.mem_cons_self) on passed
    rw [List.dropLast_cons_of_ne_nil last, List.append_cons]
    exact ih (fun t ht => written t (List.mem_cons_of_mem s ht))
      (fun t ht => single t (List.mem_cons_of_mem s ht)) on₁ goes

end Bean

/-! ## Preparing -/

/-- The way from the root keeps to its trail. -/
theorem reach_onTrail (bean : r.Bean) {path : Path} {root owner : Value} (wellFormed : path.WellFormed)
    (single : path.hasWildcard = false) (below : path.tail ≠ []) (on : r.OnTrail g root [] root)
    (h : (reach r path root).run g = (.ok owner, g')) : r.OnTrail g' root path.followed.dropLast owner := by
  have single_tail := fun s hs => Path.single_of_mem single (s := s) (List.mem_cons_of_mem _ hs)
  have written := wellFormed.written
  unfold reach at h
  by_cases bracketed : path.head.isCollection
  · have single_head := Path.single_of_mem single (s := path.head) List.mem_cons_self
    obtain ⟨slot, hslot⟩ := slot?_of_single bracketed single_head
    simp only [bracketed, if_true, Running.run_bind] at h
    generalize helement : (elementOrCreate r path root path.head path.tail.head?).run g = element at h
    obtain ⟨e | start, g₁⟩ := element
    · cases h
    obtain ⟨change, element, start_value⟩ := elementOrCreate_made on.closed on.has hslot helement
    have arrives : r.yieldAt g₁ root path.head.name = .ok (.held root) := by
      simp [Registry.yieldAt, wellFormed.head_name]
    have on₁ := (on.change bean change .refl).step (fun _ => bracketed)
      (leads_of_elementAt on.value bracketed single_head hslot arrives element start_value) start_value
    rw [Path.followed_of_bracketed bracketed, List.dropLast_cons_of_ne_nil below]
    exact ownerFrom_onTrail bean written single_tail on₁ h
  · rw [if_neg bracketed, pure_bind] at h
    rw [Path.followed_of_plain bracketed]
    exact ownerFrom_onTrail bean written single_tail on h

/-- After preparing, a trail leads from the root to the owner. -/
theorem prepare_onTrail (bean : r.Bean) {path : Path} (wellFormed : path.WellFormed) {w w' : Writer}
    (rooted : w.Rooted) {owner : Option Value}
    (h : (prepare r path).run w = (.ok owner, w')) :
    path.hasWildcard = false ∧ w'.pending = w.pending ∧ w'.Rooted ∧ w'.root ≠ .null ∧
      (owner = none → path.tail = []) ∧
      ∀ v, owner = some v → path.tail ≠ [] ∧
        r.OnTrail w'.graph w'.root path.followed.dropLast v := by
  have idle := prepare_idle r path w
  rw [h] at idle
  by_cases wild : path.hasWildcard
  · rw [prepare_of_wild r wild] at h
    cases h
  have single : path.hasWildcard = false := by simpa using wild
  obtain ⟨enriches₁, value₁⟩ := ensureRoot_enriches rooted.closed rooted.has path.head
  have rooted₁ := enriches₁.rooted rooted
  by_cases atRoot : path.tail = []
  · rw [prepare_of_root single atRoot rfl] at h
    cases h
    exact ⟨single, idle.pending, rooted₁, value₁, fun _ => atRoot, by simp⟩
  · have on₁ := Registry.OnTrail.start (r := r) rooted₁.closed rooted₁.has rooted₁.acyclic value₁
    generalize hreach : (reach r path (ensureRoot path.head w).2.root).run (ensureRoot path.head w).2.graph =
      reached at h
    obtain ⟨e | v, g₂⟩ := reached
    · rw [prepare_of_reach single atRoot rfl hreach] at h
      cases h
    · rw [prepare_of_reach single atRoot rfl hreach] at h
      cases h
      have on₂ := reach_onTrail bean wellFormed single atRoot on₁ hreach
      refine ⟨single, idle.pending, ⟨on₂.closed, on₂.has, on₂.acyclic⟩, value₁, by simp, ?_⟩
      rintro _ ⟨rfl⟩
      exact ⟨atRoot, on₂⟩

end Writer

end FieldBinding
