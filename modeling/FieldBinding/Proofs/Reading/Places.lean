import FieldBinding.Proofs.Running
import FieldBinding.Reading

/-!
# The values that a path meets

`Registry.follow` keeps a path up to date at every wildcard, so the findings know their places.  None of it is
needed to say which values are found.  `Registry.reached` follows segments and nothing else: one segment leads
from a value to the values that `Registry.entered` lists, or to a dead end, whose value is null.

Main results:

* `Registry.follow_values` — the values of the findings are the values that are reached.
* `Registry.read_values` — a read from a value that is not null succeeds and yields the values that are reached.
-/

namespace FieldBinding

/-! ## One path for many values -/

/-- Runs a computation for each element and joins the lists that it yields. -/
def joinM {σ α β : Type} (f : α → StateM σ (List β)) : List α → StateM σ (List β)
  | [] => return []
  | a :: rest => do
    let first ← f a
    let others ← joinM f rest
    return first ++ others

@[simp]
theorem joinM_nil {σ α β : Type} (f : α → StateM σ (List β)) (s : σ) : joinM f [] s = ([], s) := rfl

@[simp]
theorem joinM_cons {σ α β : Type} (f : α → StateM σ (List β)) (a : α) (rest : List α) (s : σ) :
    joinM f (a :: rest) s =
      ((f a s).1 ++ (joinM f rest (f a s).2).1, (joinM f rest (f a s).2).2) := rfl

/-- The single elements of a list are run like the list itself. -/
theorem joinM_singleton {σ α β : Type} (f : α → StateM σ (List β)) (a : α) (s : σ) :
    joinM f [a] s = f a s := by
  simp only [joinM_cons, joinM_nil, List.append_nil]
  rfl

theorem mapM_flatten {σ α β : Type} (f : α → StateM σ (List β)) (l : List α) (s : σ) :
    ((l.mapM f s).1.flatten, (l.mapM f s).2) = joinM f l s := by
  induction l generalizing s with
  | nil => rfl
  | cons a rest ih =>
    rw [joinM_cons, ← ih, List.mapM_cons]
    rfl

namespace Path

/-- The segments behind a position do not change when a place is put into the segment there. -/
theorem drop_modifyAt (p : Path) (f : Segment → Segment) (position : Nat) :
    (p.modifyAt f position).segments.drop (position + 1) = p.segments.drop (position + 1) := by
  rw [segments_modifyAt]
  refine List.ext_getElem? fun i => ?_
  have behind : position ≠ position + 1 + i := by omega
  simp [List.getElem?_drop, behind]

/-- A place that the brackets of a segment take can be put into them. -/
theorem withSlotAt_of_takes {p : Path} {position : Nat} {segment : Segment} {slot : Slot}
    (here : p.segments[position]? = some segment) (collection : segment.isCollection = true)
    (takes : (segment.withSlot? slot).isSome) :
    ∃ q, p.withSlotAt position slot = .ok q ∧
      q.segments.drop (position + 1) = p.segments.drop (position + 1) := by
  cases slot with
  | index n =>
    refine ⟨_, ?_, p.drop_modifyAt (·.withIndex n) position⟩
    simp [withSlotAt, withIndexAt, here, collection, Int.not_lt.2 (Int.natCast_nonneg n)]
  | key key =>
    obtain ⟨name, selector, isRoot⟩ := segment
    cases selector with
    | entry other =>
      refine ⟨_, ?_, p.drop_modifyAt (·.withKey key) position⟩
      simp [withSlotAt, withKeyAt, here]
    | _ => simp [Segment.withSlot?, Selector.bracket?] at takes

theorem withSlotAt_of_not_takes {p : Path} {position : Nat} {segment : Segment} {slot : Slot}
    (here : p.segments[position]? = some segment) (takes : ¬(segment.withSlot? slot).isSome) :
    ∃ e, p.withSlotAt position slot = .error e := by
  cases slot with
  | index n => simp [Segment.withSlot?] at takes
  | key key =>
    obtain ⟨name, selector, isRoot⟩ := segment
    cases selector with
    | entry other => simp [Segment.withSlot?, Selector.bracket?] at takes
    | _ => exact ⟨_, by simp only [withSlotAt, withKeyAt, here]; rfl⟩

end Path

/-- The segments that a reader follows: a root without brackets stands for the source itself. -/
def Path.followed (p : Path) : List Segment :=
  if p.head.isCollection then p.segments else p.tail

theorem Path.followed_of_bracketed {p : Path} (bracketed : p.head.isCollection) :
    p.followed = p.head :: p.tail := by
  simp [followed, bracketed, segments]

theorem Path.followed_of_plain {p : Path} (plain : ¬p.head.isCollection) : p.followed = p.tail := by
  simp [followed, plain]

theorem Path.followed_single {p : Path} (single : p.hasWildcard = false) :
    p.followed.any Segment.isWildcard = false := by
  unfold followed
  split
  · exact single
  · rw [hasWildcard, segments, List.any_cons, Bool.or_eq_false_iff] at single
    exact single.2

theorem Path.last_of_root {p : Path} (atRoot : p.tail = []) : p.last = p.head := by
  simp [last, atRoot]

theorem Path.last_of_below {p : Path} (below : p.tail ≠ []) : p.last = p.tail.getLast below := by
  rw [last, List.getLastD_eq_getLast?, List.getLast?_eq_some_getLast below, Option.getD_some]

theorem Path.last_mem_tail {p : Path} (below : p.tail ≠ []) : p.last ∈ p.tail := by
  rw [last_of_below below]
  exact List.getLast_mem below

theorem Path.last_mem (p : Path) : p.last ∈ p.segments := by
  rw [last, List.getLastD_eq_getLast?, segments]
  cases below : p.tail.getLast? with
  | none => exact List.mem_cons_self
  | some s => exact List.mem_cons_of_mem _ (List.mem_of_getLast? below)

theorem Path.single_of_mem {p : Path} (single : p.hasWildcard = false) {s : Segment}
    (mem : s ∈ p.segments) : s.isWildcard = false := by
  simpa using List.any_eq_false.1 single s mem

theorem Path.last_single {p : Path} (single : p.hasWildcard = false) : p.last.isWildcard = false :=
  single_of_mem single p.last_mem

namespace Registry

/-! ## Reaching -/

/-- The values behind the brackets of a segment, of the child that its name stands for; none if the child has
no such places.  Of the entries of a map, those are left out whose keys the brackets do not take. -/
def selected (g : Graph) (segment : Segment) (child : Value) : Option (List Value) :=
  if !segment.isCollection then some [child]
  else if !child.isCollection then none
  else
    match segment.selector.slot? with
    | some slot => some [g.elementAt child slot]
    | none => some (((g.elements child).filter fun e => (segment.withSlot? e.1).isSome).map (·.2))

/-- The values that a segment leads to from a value; none if there is no way on. -/
def entered (r : Registry) (current : Value) (segment : Segment) :
    StateM Graph (Option (List Value)) := do
  if current.isNull then return none
  match ← (r.child current segment.name).run with
  | .error _ => return none
  | .ok child => return selected (← get) segment child

/-- The values that segments lead to from a value.  A dead end leads to null. -/
def reached (r : Registry) (current : Value) : List Segment → StateM Graph (List Value)
  | [] => return [current]
  | segment :: rest => do
    match ← r.entered current segment with
    | none => return [.null]
    | some values => joinM (fun v => r.reached v rest) values

theorem entered_run (r : Registry) {current : Value} (value : ¬current.isNull) (segment : Segment)
    (g : Graph) :
    r.entered current segment g =
      match (r.child current segment.name).run g with
      | (.error _, g') => (none, g')
      | (.ok child, g') => (selected g' segment child, g') := by
  unfold entered
  simp only [value, Bool.false_eq_true, if_false, Running.state_bind]
  rcases (r.child current segment.name).run g with ⟨e | child, g'⟩ <;> rfl

theorem reached_null (r : Registry) (segments : List Segment) (g : Graph) :
    r.reached .null segments g = ([.null], g) := by
  cases segments <;> rfl

theorem reached_cons (r : Registry) (current : Value) (segment : Segment) (rest : List Segment)
    (g : Graph) :
    r.reached current (segment :: rest) g =
      match r.entered current segment g with
      | (none, g') => ([.null], g')
      | (some values, g') => joinM (r.reached · rest) values g' := by
  rw [reached]
  simp only [Running.state_bind]
  rcases r.entered current segment g with ⟨_ | values, g'⟩ <;> rfl

/-! ## Findings -/

/-- The values of findings. -/
def valuesOf (findings : List Finding) : List Value :=
  findings.map (·.field.value)

theorem valuesOf_append (a b : List Finding) : valuesOf (a ++ b) = valuesOf a ++ valuesOf b :=
  List.map_append

/-- What follows a wildcard is the same for the findings as for the values, if it is for each element that the
brackets take. -/
theorem follow_elements {r : Registry} {template : Field} {path : Path} {position : Nat}
    {segment : Segment} {rest : List Segment}
    (here : path.segments.drop position = segment :: rest) (collection : segment.isCollection = true)
    (each : ∀ (q : Path) (v : Value) (i : Nat) (g : Graph),
      q.segments.drop (position + 1) = rest →
        (valuesOf (r.follow template q v (position + 1) (some i) rest g).1,
          (r.follow template q v (position + 1) (some i) rest g).2) = r.reached v rest g)
    (elements : List (Slot × Value)) (start : Nat) (g : Graph) :
    let run := joinM (fun e : (Slot × Value) × Nat =>
      match path.withSlotAt position e.1.1 with
      | .ok concrete => r.follow template concrete e.1.2 (position + 1) (some e.2) rest
      | .error _ => pure []) (elements.zipIdx start) g
    (valuesOf run.1, run.2) =
      joinM (r.reached · rest)
        ((elements.filter fun e => (segment.withSlot? e.1).isSome).map (·.2)) g := by
  have at_position : path.segments[position]? = some segment := by
    rw [← List.head?_drop, here, List.head?_cons]
  have behind : path.segments.drop (position + 1) = rest := by
    rw [← List.tail_drop, here, List.tail_cons]
  intro run
  induction elements generalizing start g with
  | nil => rfl
  | cons e others ih =>
    obtain ⟨slot, v⟩ := e
    simp only [run, List.zipIdx_cons, joinM_cons]
    by_cases takes : (segment.withSlot? slot).isSome
    · obtain ⟨q, hq, same⟩ := Path.withSlotAt_of_takes at_position collection takes
      have first := each q v start g (same.trans behind)
      rw [List.filter_cons_of_pos (by simpa using takes), List.map_cons, joinM_cons, ← first,
        ← ih (start + 1)]
      simp only [hq, valuesOf_append]
    · obtain ⟨e, he⟩ := Path.withSlotAt_of_not_takes at_position takes
      rw [List.filter_cons_of_neg (by simpa using takes), ← ih (start + 1)]
      simp only [he, Running.state_pure, List.nil_append]

/-- The values of the findings are the values that are reached. -/
theorem follow_values (r : Registry) (template : Field) (path : Path) (current : Value)
    (position : Nat) (index : Option Nat) (segments : List Segment) (g : Graph)
    (here : path.segments.drop position = segments) :
    (valuesOf (r.follow template path current position index segments g).1,
      (r.follow template path current position index segments g).2) =
      r.reached current segments g := by
  induction segments generalizing path current position index g with
  | nil => rfl
  | cons segment rest ih =>
    have behind : path.segments.drop (position + 1) = rest := by
      rw [← List.tail_drop, here, List.tail_cons]
    rw [reached_cons]
    by_cases value : current.isNull
    · simp only [follow, entered, value]
      rfl
    rw [entered_run r value]
    simp only [follow, value, Bool.false_eq_true, if_false, Running.state_bind]
    obtain ⟨e | child, g₁⟩ := (r.child current segment.name).run g
    · -- nobody asks for more than null, whether the segment is the last one or not
      cases rest <;> rfl
    by_cases collection : segment.isCollection
    case neg =>
      simp only [selected, collection, Bool.not_false, if_true, joinM_singleton]
      exact ih _ _ _ _ _ behind
    by_cases places : child.isCollection
    case neg =>
      simp only [selected, collection, places]
      cases child.isNull <;> cases rest <;> rfl
    have notNull : child.isNull = false :=
      Value.isNull_eq_false_iff.2 (Value.ne_null_of_isCollection places)
    simp only [selected, collection, places, notNull, Bool.not_true, Bool.false_eq_true, if_false,
      Running.state_bind, Running.state_get]
    cases segment.selector.slot? with
    | some slot =>
      show _ = joinM (r.reached · rest) [_] g₁
      rw [joinM_singleton]
      exact ih _ _ _ _ _ behind
    | none =>
      have all := follow_elements here collection (fun q v i g => ih q v _ (some i) g)
        (g₁.elements child) 0 g₁
      rw [← mapM_flatten (fun e : (Slot × Value) × Nat => _)] at all
      exact all

/-! ## Reads -/

theorem findings_values (r : Registry) (template : Field) (source : Value) (g : Graph) :
    (valuesOf (r.findings template source g).1, (r.findings template source g).2) =
      r.reached source template.path.followed g := by
  unfold findings Path.followed
  split
  · exact follow_values r template _ source 0 none _ g rfl
  · exact follow_values r template _ source 1 none _ g rfl

/-- Without a wildcard there is one way. -/
theorem reached_single (r : Registry) (current : Value) {segments : List Segment}
    (single : segments.any Segment.isWildcard = false) (g : Graph) :
    ∃ v, (r.reached current segments g).1 = [v] := by
  induction segments generalizing current g with
  | nil => exact ⟨current, rfl⟩
  | cons segment rest ih =>
    rw [List.any_cons, Bool.or_eq_false_iff] at single
    by_cases value : current.isNull
    · cases current <;> simp [Value.isNull] at value
      exact ⟨.null, by rw [reached_null]⟩
    rw [reached_cons, entered_run r value]
    rcases (r.child current segment.name).run g with ⟨e | child, g₁⟩
    · exact ⟨.null, rfl⟩
    have one : selected g₁ segment child = none ∨ ∃ v, selected g₁ segment child = some [v] := by
      unfold selected
      split
      · exact .inr ⟨child, rfl⟩
      split
      · exact .inl rfl
      cases hslot : segment.selector.slot? with
      | some slot => exact .inr ⟨_, rfl⟩
      | none => simp_all [Segment.isWildcard, Segment.isIndexed]
    rcases one with dead | ⟨v, on⟩
    · exact ⟨.null, by simp only [dead]⟩
    · simp only [on, joinM_singleton]
      exact ih v single.2 g₁

/-- A read from a value that is not null succeeds and yields the values that are reached. -/
theorem read_values (r : Registry) (template : Field) {source : Value} (value : source ≠ .null)
    (g : Graph) :
    ∃ e audits, (r.read template source).run g =
        (.ok (e, audits), (r.reached source template.path.followed g).2) ∧
      e.values = (r.reached source template.path.followed g).1 := by
  have notNull : source.isNull = false := Value.isNull_eq_false_iff.2 value
  have found := findings_values r template source g
  rw [Prod.ext_iff] at found
  refine ⟨extracted template (r.findings template source g).1,
    (r.findings template source g).1.filterMap (·.audit?), ?_, ?_⟩
  · rw [← found.2]
    simp only [read, notNull]
    rfl
  · rw [← found.1]
    unfold extracted
    cases wild : template.path.hasWildcard
    case true => simp [Extracted.values, FieldGroup.values, valuesOf]
    obtain ⟨v, one⟩ := reached_single r source (template.path.followed_single wild) g
    rw [← found.1, valuesOf, List.map_eq_singleton_iff] at one
    obtain ⟨finding, same, _⟩ := one
    simp [same, Extracted.values, valuesOf]

end Registry

end FieldBinding
