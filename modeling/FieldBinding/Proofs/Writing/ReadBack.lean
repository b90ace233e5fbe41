import Mathlib
import FieldBinding.Proofs.Writing.Queueing

/-!
# Reading back what was written

A value that is stored at the end of a trail lengthens the trail by the last segment of its path, so that a
reader of the path comes to the value.

Main results:

* `Writer.apply_trail` — after a queued value is stored, a trail leads from the root to it.
* `Writer.write_commit_read` — a value that is written and committed is what its path reads.
-/

namespace FieldBinding

open FieldBinding.Graph

variable {r : Registry}

namespace Writer

section Bean

variable (bean : r.Bean)

include bean

/-- A value that is stored in an owner is where the last segment leads to. -/
theorem storeChild_trail {g g' : Graph} {path : Path} {target : Option TypeTag}
    {root owner v : Value} {done : List Segment} (on : r.OnTrail g root done owner)
    (written : path.last.Written) (single : path.last.isWildcard = false) (value : v ≠ .null)
    (h : (storeChild r path target owner v).run g = (.ok ⟨⟩, g')) :
    r.Trail g' root (done ++ [path.last]) v := by
  cases storeChild_runs h with
  | plain plain put =>
    have named : path.last.name ≠ "" := fun name => by simp [written name] at plain
    obtain ⟨label, change, reads, -⟩ := setChild_stores bean (on.has_end bean) named value put
    have kept : g.SameBut g' owner := fun u _ apart => change.kept u apart
    exact (on.trail.kept bean on.written on.closed on.has on.acyclic on.value kept .refl).snoc
      (leads_of_child on.value plain reads)
  | @stored slot c c' _ g₂ _ bracketed hslot child there grown store =>
    obtain ⟨rfl, hyield⟩ := bean.child_held child
    obtain ⟨x, behind, change, arrives, c'_value⟩ := grow_made bean on.closed (on.has_end bean)
      (on.acyclic_end bean) hyield there grown
    have on₂ := on.change bean change behind
    have reached := reaches_of_yieldAt bean arrives c'_value
    obtain ⟨label, stored, element, -⟩ :=
      storeElement_stores (reached.has on₂.closed (on₂.has_end bean)) store
    have kept : g₂.SameBut g' c' := fun u _ apart => stored.kept u apart
    have arrives' := yieldAt_kept bean arrives (on₂.has_end bean) (on₂.acyclic_end bean) c'_value kept
    exact (on₂.trail.kept bean on₂.written on₂.closed on₂.has on₂.acyclic on₂.value kept
      reached).snoc (leads_of_elementAt on.value bracketed single hslot arrives' element value)

omit bean in
/-- A value that is stored in the root, or in an element of it, is where the head of the path leads to. -/
theorem storeRoot_trail {path : Path} {w w' : Writer} {v : Value} (rooted : w.Rooted)
    (root : w.root ≠ .null) (head_name : path.head.name = "")
    (single : path.head.isWildcard = false) (atRoot : path.tail = []) (value : v ≠ .null)
    (h : (storeRoot path path.head v).run w = (.ok ⟨⟩, w')) :
    r.Trail w'.graph w'.root path.followed v ∧ w'.root ≠ .null := by
  by_cases collection : path.head.isCollection
  case neg =>
    rw [storeRoot_of_plain (slot?_eq_none (by simpa using collection))] at h
    cases h
    rw [Path.followed_of_plain collection, atRoot]
    exact ⟨.here v, value⟩
  obtain ⟨slot, hslot⟩ := slot?_of_single collection single
  obtain ⟨rooted₁, root₁⟩ : (w.withRootPlace slot).Rooted ∧ (w.withRootPlace slot).root ≠ .null := by
    cases slot with
    | key key => exact ⟨rooted, root⟩
    | index n =>
      have enriches := growRoot_enriches rooted.closed rooted.has n
      exact ⟨enriches.rooted rooted, enriches.value root⟩
  obtain ⟨g, store, rfl⟩ := storeRoot_ok hslot h
  generalize w.withRootPlace slot = w₁ at store rooted₁ root₁
  obtain ⟨label, -, element, -⟩ := storeElement_stores rooted₁.has store
  have arrives : r.yieldAt g w₁.root path.head.name = .ok (.held w₁.root) := by
    simp [Registry.yieldAt, head_name]
  rw [Path.followed_of_bracketed collection, atRoot]
  exact ⟨.step (leads_of_elementAt root₁ collection single hslot arrives element value) (.here v), root₁⟩

/-- After a queued value is stored, a trail leads from the root to it. -/
theorem apply_trail {entry : PendingWrite} {w w' : Writer} {v : Value}
    (wellFormed : entry.field.path.WellFormed) (single : entry.field.path.hasWildcard = false)
    (rooted : w.Rooted) (root : w.root ≠ .null)
    (atRoot : entry.owner = none → entry.field.path.tail = [])
    (below : ∀ owner, entry.owner = some owner → entry.field.path.tail ≠ [] ∧
      r.OnTrail w.graph w.root entry.field.path.followed.dropLast owner)
    (value : v ≠ .null) (h : (apply r entry v).run w = (.ok ⟨⟩, w')) :
    r.Trail w'.graph w'.root entry.field.path.followed v ∧ w'.root ≠ .null := by
  unfold apply at h
  cases howner : entry.owner with
  | none =>
    have last : entry.field.path.last = entry.field.path.head := by
      simp [Path.last, atRoot howner]
    simp only [howner, last] at h
    exact storeRoot_trail rooted root wellFormed.head_name
      (Path.single_of_mem single List.mem_cons_self) (atRoot howner) value h
  | some owner =>
    obtain ⟨more, on⟩ := below owner howner
    simp only [howner, onGraph_run] at h
    obtain ⟨hrun, rfl⟩ := Prod.mk.inj h
    have isLast := Path.last_of_below more
    have inTail := Path.last_mem_tail more
    have followed : entry.field.path.followed.dropLast ++ [entry.field.path.last] =
        entry.field.path.followed := by
      rw [isLast]
      unfold Path.followed Path.segments
      split
      · rw [← List.getLast_cons more, List.dropLast_concat_getLast]
      · exact List.dropLast_concat_getLast more
    have trail := storeChild_trail bean on (wellFormed.written _ inTail)
      (Path.last_single single) value (Prod.ext hrun rfl)
    rw [followed] at trail
    exact ⟨trail, root⟩

omit bean in
/-- A commit of one value that is stored. -/
theorem commit_single {zone : Zone} {w w' : Writer} {entry : PendingWrite}
    (queued : w.pending = [entry]) (h : commit r zone w = (1, w')) :
    ∃ audits, (apply r entry (coerced w.graph zone entry.field entry.target)).run
      { w with pending := [], audits } = (.ok ⟨⟩, w') := by
  obtain ⟨audits, run⟩ := coerce_run zone entry.field entry.target { w with pending := [] }
  refine ⟨audits, ?_⟩
  simp only [commit, Running.state_bind, Running.state_get, Running.state_modify, queued,
    List.foldlM_cons, List.foldlM_nil, storeQueued, run] at h
  generalize (apply r entry _).run _ = stored at h ⊢
  obtain ⟨e | u, w₂⟩ := stored
  · cases h
  · cases h
    rfl

/-- A value that is written and committed is what its path reads. -/
theorem write_commit_read {text : String} {zone : Zone} {field : Field} {w w₁ w₂ : Writer}
    {entry : PendingWrite} (parsed : Path.parse text = .ok field.path) (rooted : w.Rooted)
    (fresh : w.pending = []) (written : (write r zone field).run w = (.ok ⟨⟩, w₁))
    (queued : w₁.pending = [entry]) (value : entry.field.value ≠ .null)
    (committed : commit r zone w₁ = (1, w₂)) {template : Field}
    (same : template.path = field.path) :
    ∃ f, (r.read template w₂.root).run w₂.graph = (.ok (.field f, []), w₂.graph) ∧
      f.value = entry.field.value := by
  have wellFormed := Path.wellFormed_of_parse parsed
  unfold write at written
  simp only [Running.run_bind] at written
  generalize hprepare : (prepare r field.path).run w = prepared at written
  obtain ⟨e | owner, w'⟩ := prepared
  · cases written
  obtain ⟨single, pending, rooted', root, atRoot, below⟩ :=
    prepare_onTrail bean wellFormed rooted hprepare
  obtain ⟨target, graph_same, root_same, pending'⟩ := populate_queues bean written
  rw [pending, fresh, queued, List.nil_append, List.cons.injEq, and_iff_left rfl] at pending'
  subst pending'
  obtain ⟨audits, applied⟩ := commit_single queued committed
  simp only [coerced_settled] at applied
  rw [← graph_same, ← root_same] at below
  rw [← root_same] at root
  have rooted_queued : ({ w₁ with pending := [], audits } : Writer).Rooted :=
    ⟨graph_same ▸ rooted'.closed, graph_same ▸ root_same ▸ rooted'.has,
      graph_same ▸ root_same ▸ rooted'.acyclic⟩
  obtain ⟨trail, root'⟩ :=
    apply_trail bean wellFormed single rooted_queued root atRoot below value applied
  have noWildcard : template.path.hasWildcard = false := same ▸ single
  refine ⟨_, Registry.Trail.read noWildcard root' (same ▸ trail), rfl⟩

end Bean

/-- A cell of a row, in an array that has to be made for it. -/
theorem write_commit_read_cell :
    let row := (Descriptor.ofName "Row").addField "cells" (.sequence .array .any)
    let r := Registry.ofList [row]
    let document := Graph.empty.plant (.object "Row" [])
    let w : Writer := { graph := document.2, root := document.1 }
    let field : Field :=
      { path := ⟨.root, [⟨"cells", .element .array (some 1), false⟩]⟩
        value := .scalar (.string "x") }
    ∃ w₁ w₂ entry, (r.Bean ∧ Path.parse "/cells[1]" = .ok field.path ∧ w.Rooted ∧ w.pending = [] ∧
      (write r .utc field).run w = (.ok ⟨⟩, w₁) ∧ w₁.pending = [entry] ∧
      entry.field.value = field.value ∧ commit r .utc w₁ = (1, w₂)) ∧
      ∃ f, (r.read field w₂.root).run w₂.graph = (.ok (.field f, []), w₂.graph) ∧
        f.value = entry.field.value := by
  intro row r document w field
  have bean : r.Bean := Registry.single_bean
    (.field (.header "Row" [] false none) "cells" _ (by simp)) (by
      intro m hm m' hm' _
      rw [List.mem_singleton.1 hm, List.mem_singleton.1 hm'])
  have parsed : Path.parse "/cells[1]" = .ok field.path := by cbv
  have rooted : w.Rooted := by
    refine ⟨by decide, by decide, .of_children fun c hc => ?_⟩
    have none : w.graph.children w.root = [] := by decide
    simp [none] at hc
  have written : (write r .utc field).run w = (.ok ⟨⟩, ((write r .utc field).run w).2) :=
    Prod.ext (by cbv) rfl
  have queued : ((write r .utc field).run w).2.pending = [⟨field, some document.1, none⟩] := by cbv
  have committed : commit r .utc ((write r .utc field).run w).2 =
      (1, (commit r .utc ((write r .utc field).run w).2).2) :=
    Prod.ext (by cbv) rfl
  exact ⟨_, _, _, ⟨bean, parsed, rooted, rfl, written, queued, rfl, committed⟩,
    write_commit_read bean parsed rooted rfl written queued (by simp [field]) committed rfl⟩

end Writer

end FieldBinding
