import FieldBinding.Proofs.Graph.Frame

/-!
# Ways into a value

A route says where a value is found, not what kind of value it is found in.  An `Access` says that too: a name opens
what holds names, and a place in brackets opens a collection that has such places.  `Graph.look` follows accesses from
slot to slot and sees nothing behind a value that an access does not open.

Main results:

* `Graph.look_of_along` — where every value opens, accesses lead to what their route leads to.
* `Graph.Frames.look_contentWithin` — what accesses lead to that part from the route of a change stays the same.
-/

namespace FieldBinding

open FieldBinding.Graph

/-! ## Accesses -/

/-- One way into a value: by a name, or by a place of a collection. -/
inductive Access where
  | name (name : String)
  | slot (slot : Slot)
  deriving DecidableEq, Repr

namespace Access

/-- The label of the slot that is opened. -/
def label : Access → String
  | .name text => text
  | .slot place => Graph.label place

/-- Whether a value opens to an access. -/
def opens (v : Value) : Access → Bool
  | .name _ => v.holdsNames
  | .slot place => fits v place

/-- Whether an access is meant for a value: a name for what holds names, an index for a sequence, a key for a map. -/
def meantFor : Access → Value → Bool
  | .name _, v => v.holdsNames
  | .slot (.index _), .sequence _ _ | .slot (.key _), .map _ => true
  | _, _ => false

theorem opens_of_meantFor {a : Access} {v : Value} (h : a.meantFor v = true) : a.opens v = true := by
  rcases a with _ | _ | _
  · exact h
  · cases v <;> first | rfl | cases h
  · cases v <;> first | rfl | cases h

theorem cases_of_meantFor {s : Slot} {v : Value} (h : (slot s).meantFor v = true) :
    (∃ n kind id, s = .index n ∧ v = .sequence kind id) ∨ ∃ key id, s = .key key ∧ v = .map id := by
  cases s with
  | index n =>
    cases v with
    | sequence kind id => exact .inl ⟨n, kind, id, rfl, rfl⟩
    | _ => cases h
  | key key =>
    cases v with
    | map id => exact .inr ⟨key, id, rfl, rfl⟩
    | _ => cases h

end Access

/-- What accesses lead to from a value; null where a value does not open. -/
def Graph.look (g : Graph) : Value → List Access → Value
  | v, [] => v
  | v, a :: rest => if a.opens v then g.look ((g.slot? v a.label).getD .null) rest else .null

theorem Graph.look_null (g : Graph) (accesses : List Access) : g.look .null accesses = .null := by
  cases accesses with
  | nil => rfl
  | cons a rest =>
    rw [look, if_neg]
    cases a <;> simp [Access.opens, Value.holdsNames, fits]

theorem Graph.look_append (g : Graph) (v : Value) (front rest : List Access) :
    g.look v (front ++ rest) = g.look (g.look v front) rest := by
  induction front generalizing v with
  | nil => rfl
  | cons a front ih =>
    rw [List.cons_append, look, look]
    split
    · exact ih _
    · exact (look_null g rest).symm

theorem Graph.look_slot (g : Graph) (c : Value) (slot : Slot) (rest : List Access) :
    g.look c (.slot slot :: rest) = g.look (g.elementAt c slot) rest := by
  rw [look, elementAt_eq]
  by_cases opens : fits c slot
  · rw [if_pos opens]
    exact if_pos opens
  · rw [if_neg opens, look_null]
    exact if_neg opens

theorem Graph.Closed.has_look {g : Graph} (closed : g.Closed) {v : Value} (has : g.Has v)
    (accesses : List Access) : g.Has (g.look v accesses) := by
  induction accesses generalizing v with
  | nil => exact has
  | cons a rest ih =>
    rw [look]
    split
    · cases slot : g.slot? v a.label with
      | none => exact ih trivial
      | some c => exact ih (closed.has_of_slot? has slot)
    · trivial

/-- Where every value on the way opens, accesses lead to what their route leads to. -/
theorem Graph.look_of_along {g : Graph} {v w : Value} {accesses : List Access}
    (arrives : g.along v (accesses.map Access.label) = some w)
    (opens : ∀ front a back u, accesses = front ++ a :: back →
      g.along v (front.map Access.label) = some u → u ≠ .null → a.opens u = true) :
    g.look v accesses = w := by
  induction accesses generalizing v with
  | nil => exact Option.some.inj arrives
  | cons a rest ih =>
    rw [List.map_cons, along_cons, Option.bind_eq_some_iff] at arrives
    obtain ⟨c, slot, arrives⟩ := arrives
    have value : v ≠ .null := by
      rintro rfl
      cases slot
    rw [look, if_pos (opens [] a rest v rfl rfl value), slot, Option.getD_some]
    refine ih arrives fun front b back u eq found => opens (a :: front) b back u (by rw [eq]; rfl) ?_
    rw [List.map_cons, along_cons, slot, Option.bind_some, found]

/-! ## Apart from a change -/

namespace Graph.Frames

variable {g g' : Graph} {root root' : Value} {ρ σ : List String}
  (frames : Frames ρ g root g' root')

include frames

/-- Behind a place apart from the route everything is as it was. -/
theorem look_below {v : Value} (parted : Parted σ ρ) (arrives : g.along root σ = some v)
    (accesses : List Access) (depth : Nat) :
    g'.contentWithin depth (g'.look v accesses) = g.contentWithin depth (g.look v accesses) := by
  induction accesses generalizing v σ with
  | nil => exact frames.contentWithin_eq depth parted arrives
  | cons a rest ih =>
    have same : g'.slot? v a.label = g.slot? v a.label := by
      rw [slot?, slot?, frames.nodes σ v parted arrives]
    rw [look, look, same]
    split
    case isFalse => cases depth <;> rfl
    cases found : g.slot? v a.label with
    | none =>
      rw [Option.getD_none, look_null, look_null]
      cases depth <;> rfl
    | some w =>
      exact ih (parted.append [a.label]) (by rw [along_concat, arrives, Option.bind_some, found]; rfl)

/-- Where nothing was on the route, nothing is found that parts from it. -/
theorem look_missing (front : σ <+: ρ)
    (missing : g.along root σ = none ∨ g.along root σ = some .null) {accesses : List Access}
    (parted : Parted (σ ++ accesses.map Access.label) ρ) :
    g'.look ((g'.along root' σ).getD .null) accesses = .null := by
  induction accesses generalizing σ with
  | nil =>
    rw [List.map_nil, List.append_nil] at parted
    exact absurd front parted.1
  | cons a rest ih =>
    rw [look]
    split
    case isFalse => rfl
    have slot : (g'.slot? ((g'.along root' σ).getD .null) a.label).getD .null =
        (g'.along root' (σ ++ [a.label])).getD .null := by
      rw [along_concat]
      cases g'.along root' σ <;> rfl
    have absent : g.along root (σ ++ [a.label]) = none := by
      rw [along_concat]
      rcases missing with h | h <;> rw [h] <;> rfl
    rw [slot]
    by_cases on : σ ++ [a.label] <+: ρ
    · exact ih on (.inl absent) (by simpa using parted)
    · have off : Parted (σ ++ [a.label]) ρ :=
        ⟨on, fun h => parted.2 (h.trans ⟨rest.map Access.label, by simp⟩)⟩
      rcases frames.off _ off with same | ⟨-, null, -⟩
      · rw [same, absent, Option.getD_none, look_null]
      · rw [null, Option.getD_some, look_null]

/-- What accesses lead to that part from the route stays the same. -/
theorem look_contentWithin (front : σ <+: ρ) {accesses : List Access}
    (parted : Parted (σ ++ accesses.map Access.label) ρ) (depth : Nat) :
    g'.contentWithin depth (g'.look ((g'.along root' σ).getD .null) accesses) =
      g.contentWithin depth (g.look ((g.along root σ).getD .null) accesses) := by
  induction accesses generalizing σ with
  | nil =>
    rw [List.map_nil, List.append_nil] at parted
    exact absurd front parted.1
  | cons a rest ih =>
    have null : ∀ (k : Graph), k.contentWithin depth .null = .null := fun k => by cases depth <;> rfl
    have more : σ ≠ ρ := by
      rintro rfl
      exact parted.2 (List.prefix_append _ _)
    -- a value that was on the route opens as it did
    have opened : (g.along root σ = none ∨ g.along root σ = some .null) ∨
        a.opens ((g'.along root' σ).getD .null) = a.opens ((g.along root σ).getD .null) := by
      have place := frames.on σ front more
      generalize g.along root σ = x at place ⊢
      generalize g'.along root' σ = y at place ⊢
      cases place with
      | same => exact .inr rfl
      | filled missing _ => exact .inl missing
      | longer _ =>
        refine .inr ?_
        cases a with
        | name name => rfl
        | slot slot => cases slot <;> rfl
    rcases opened with missing | opened
    · rw [frames.look_missing front missing parted, null]
      have nothing : (g.along root σ).getD .null = .null := by
        rcases missing with h | h <;> rw [h] <;> rfl
      rw [nothing, look_null, null]
    rw [look, look, opened]
    split
    case isFalse => rw [null, null]
    have slot : ∀ (k : Graph) (v : Value),
        (k.slot? ((k.along v σ).getD .null) a.label).getD .null =
          (k.along v (σ ++ [a.label])).getD .null := fun k v => by
      rw [along_concat]
      cases k.along v σ <;> rfl
    rw [slot, slot]
    by_cases on : σ ++ [a.label] <+: ρ
    · exact ih on (by simpa using parted)
    have off : Parted (σ ++ [a.label]) ρ :=
      ⟨on, fun h => parted.2 (h.trans ⟨rest.map Access.label, by simp⟩)⟩
    rcases frames.off _ off with same | ⟨absent, none, -⟩
    · rw [same]
      cases found : g.along root (σ ++ [a.label]) with
      | none => rw [Option.getD_none, look_null, look_null, null, null]
      | some v => exact frames.look_below off found rest depth
    · rw [none, absent, Option.getD_some, Option.getD_none, look_null, look_null, null, null]

end Graph.Frames

end FieldBinding
