import FieldBinding.Proofs.Writing.Accounts
import FieldBinding.Proofs.Writing.Laying

/-!
# What storing puts into slots

A value that is stored is put into the slot that the last segment of its path stands for: that of a child of its
owner, or of an element of the collection there.  A collection that is too short is made longer first, as it is when a
path is prepared.

The type of the place of a child is looked up when the value is queued, see `PendingWrite.Aimed`, and it is still the
type of the place when the value is stored.

Main results:

* `Writer.populate_aimed` — a queued value is aimed at the type of its place, unless its field has a type of its own.
* `Writer.apply_edits` — what storing a queued value does to the graph.
-/

namespace FieldBinding

open FieldBinding.Graph

namespace PendingWrite

/-- A queued value for a child is meant for the type that is known of the child. -/
def Aimed (r : Registry) (g : Graph) (e : PendingWrite) : Prop :=
  ∀ owner, e.owner = some owner → e.field.path.last.isCollection = false →
    ∃ hint, e.target = r.childType? g owner e.field.path.last.name hint

variable {r : Registry} {zone : Zone} {g g' : Graph} {e : PendingWrite}

theorem Valid.of_has (valid : e.Valid g) (has : ∀ v, g.Has v → g'.Has v) : e.Valid g' where
  owner v owned := has v (valid.owner v owned)
  value := has _ valid.value

theorem Aimed.of_kind (aimed : e.Aimed r g) (valid : e.Valid g)
    (kind : ∀ v, g.Has v → (g'.node v).kind = (g.node v).kind) : e.Aimed r g' := by
  intro owner owned plain
  obtain ⟨hint, target⟩ := aimed owner owned plain
  exact ⟨hint, by rw [target, Registry.childType?_congr (kind owner (valid.owner owner owned))]⟩

/-- A value that has been converted for a place of scalars is null or of the kind of the place. -/
theorem Settled.lands (settled : e.Settled zone) {tag : TypeTag} {kind : ScalarKind} (target : e.target = some tag)
    (scalar : tag.fieldType = .scalar kind) :
    e.field.value = .null ∨ ∃ s, e.field.value = .scalar s ∧ s.kind = kind := by
  rw [← settled .empty, target, Writer.coerced]
  cases converted : Graph.empty.convertTo zone e.field.value tag with
  | ok v => exact Graph.convertTo_lands scalar converted
  | error fault => exact .inl rfl

end PendingWrite

namespace Writer

variable {r : Registry} {zone : Zone} {g g' : Graph}

/-! ## Queueing -/

/-- A value is queued in the form in which its place takes it, and for the type of its place unless its field has a
type of its own. -/
theorem populate_aimed (bean : r.Bean) {field : Field} {owner : Option Value} {w w' : Writer}
    (has : w.graph.Has field.value) (has_owner : ∀ v, owner = some v → w.graph.Has v)
    (h : (populate r zone field owner).run w = (.ok ⟨⟩, w')) :
    w'.graph = w.graph ∧ w'.root = w.root ∧ ∃ e : PendingWrite, w'.pending = w.pending ++ [e] ∧
      e.Valid w.graph ∧ e.Settled zone ∧ (field.type = none → e.Aimed r w.graph) := by
  cases populate_populates h with
  | @queued target graph audits found =>
    obtain rfl : graph = w.graph := by
      have same := targetOf_graph bean w.root field owner
        (if field.value.isNull then none else some (w.graph.tagOf field.value)) w.graph
      rwa [found] at same
    refine ⟨rfl, rfl, _, rfl, ⟨has_owner, ?_⟩, fun g => coerced_settled w.graph g zone field target,
      fun untyped => ?_⟩
    · rcases coerced_cases w.graph zone field target with same | leaf
      · exact same.symm ▸ has
      · exact has_of_leaf leaf
    · rintro node rfl plain
      refine ⟨if field.value.isNull then none else some (w.graph.tagOf field.value), ?_⟩
      have known := congrArg Prod.fst found
      simp only [targetOf, untyped, show field.path.last.isCollection = false from plain, Bool.false_eq_true, if_false,
        Running.run_bind, Running.run_get] at known
      exact (Except.ok.inj known).symm

/-! ## Storing -/

/-- What storing a queued value puts into a slot: the value, where the last segment of its path stands, or what is
laid to make this place addressable. -/
inductive Deposits (r : Registry) (start : Graph) (e : PendingWrite) (v : Value) (g : Graph) (x : Value)
    (label : String) (u : Value) : Prop where
  | laid (lays : Lays r True g x label u)
  | element (collection : x.isCollection) (value : u = v)
  | child (first : g = start) (owned : e.owner = some x) (plain : e.field.path.last.isCollection = false)
      (stands : r.StandsFor g x e.field.path.last.name label) (value : u = v)
      (nullable : v = .null → x.isObject → (r.slotType (g.node x).kind label).isNullable)

variable {e : PendingWrite} {v : Value}

section Standalone

variable (alone : r.Standalone)

include alone

theorem storeChild_edits {owner : Value} {result : Except BindError Unit} (closed : g.Closed) (valid : e.Valid g)
    (has_v : g.Has v) (owned : e.owner = some owner)
    (h : (storeChild r e.field.path e.target owner v).run g = (result, g')) : Edits r (Deposits r g e v) g g' := by
  have has := valid.owner owner owned
  -- what is laid to make the place addressable
  have laid : ∀ {c : Value} {answer : Except BindError Value} {g₂ : Graph}, c ≠ .null →
      r.yieldAt g owner e.field.path.last.name = .ok (.held c) →
      (grow r e.field.path owner e.field.path.last c).run g = (answer, g₂) → Edits r (Deposits r g e v) g g₂ := by
    intro c answer g₂ value arrives grown
    have lays : Edits r (Lays r True) g g₂ := grow_edits alone closed has arrives value grown
    exact lays.mono fun _ _ _ _ => .laid
  cases storeChild_runs h with
  | plain plain put =>
    cases result with
    | error fault => exact setChild_error put ▸ .refl
    | ok u =>
      rcases setChild_cases alone has put with ⟨rfl, -⟩ | ⟨label, stands, put, nullable⟩
      · exact .refl
      · exact .single (.put has has_v (.child rfl owned plain stands rfl nullable) put)
  | placeless => exact .refl
  | lost bracketed hslot child => exact Registry.child_error child ▸ .refl
  | vanished bracketed hslot child => exact (alone.bean.child_held child).1 ▸ .refl
  | short bracketed hslot child value grown =>
    obtain ⟨rfl, arrives⟩ := alone.bean.child_held child
    exact laid value arrives grown
  | refused bracketed hslot child value grown store =>
    obtain ⟨rfl, arrives⟩ := alone.bean.child_held child
    exact laid value arrives grown
  | stored bracketed hslot child value grown store =>
    obtain ⟨rfl, arrives⟩ := alone.bean.child_held child
    have edits := laid value arrives grown
    have widens := grow_widens alone.bean closed has arrives value grown
    have has_c := widens.has_of_ok alone.bean closed has arrives value
    obtain ⟨fit, put⟩ := storeElement_rewrites has_c store
    exact edits.tail (.put has_c (edits.has has_v) (.element (isCollection_of_fits fit) rfl) put)

/-- Storing a queued value puts it in its place, and nothing anywhere else but what is laid for it. -/
theorem apply_edits {w w' : Writer} {result : Except BindError Unit} (closed : w.graph.Closed)
    (has : w.graph.Has w.root) (valid : e.Valid w.graph) (has_v : w.graph.Has v)
    (h : (apply r e v).run w = (result, w')) :
    Edits r (Deposits r w.graph e v) w.graph w'.graph ∧ w'.graph.Has w'.root := by
  unfold apply at h
  cases owned : e.owner with
  | some owner =>
    simp only [owned, onGraph_run] at h
    obtain ⟨-, rfl⟩ := Prod.mk.inj h
    have edits := storeChild_edits alone closed valid has_v owned rfl
    exact ⟨edits, edits.has has⟩
  | none =>
    simp only [owned] at h
    cases hslot : e.field.path.last.selector.slot? with
    | none =>
      rw [storeRoot_of_plain hslot] at h
      cases h
      exact ⟨.refl, has_v⟩
    | some slot =>
      rw [storeRoot_of_slot hslot] at h
      obtain ⟨lays, has_root⟩ : Edits r (Lays r True) w.graph (w.withRootPlace slot).graph ∧
          (w.withRootPlace slot).graph.Has (w.withRootPlace slot).root := by
        cases slot with
        | index n => exact growRoot_edits r True has n
        | key key => exact ⟨.refl, has⟩
      have edits : Edits r (Deposits r w.graph e v) w.graph (w.withRootPlace slot).graph :=
        lays.mono fun _ _ _ _ => .laid
      cases hstore : (w.withRootPlace slot).graph.storeElement e.field.path (w.withRootPlace slot).root slot v with
      | error fault =>
        simp only [hstore] at h
        cases h
        exact ⟨edits, has_root⟩
      | ok graph =>
        simp only [hstore] at h
        cases h
        obtain ⟨fit, put⟩ := storeElement_rewrites has_root hstore
        exact ⟨edits.tail (.put has_root (edits.has has_v) (.element (isCollection_of_fits fit) rfl) put),
          (put.has _).2 has_root⟩

end Standalone

end Writer

end FieldBinding
