import FieldBinding.Proofs.Registry.Setters
import FieldBinding.Proofs.Writing.Failing

/-!
# Stores on both sides of a mirror

Two documents that show the same, one of them with nodes that failures have left behind, go on showing the same:
a queued value is stored in both of them or in neither.

Main results:

* `Writer.grow_mirrored`, `Writer.storeChild_mirrored` — a store under an owner.
* `Writer.Mirrors.apply_stores` — a store of a queued value.
-/

namespace FieldBinding

open FieldBinding.Graph

variable {r : Registry} {base : Graph} {ρ : Renaming} {g h : Graph}

namespace Writer

/-- A collection is made large enough on both sides, or on neither. -/
theorem grow_mirrored (m : base.Mirrors ρ g h) {owner c : Value}
    (has : g.Has owner) (has_c : g.Has c) (path : Path) (s : Segment) :
    Mirrored base ρ g SameValue ((grow r path owner s c).run g)
      ((grow r path (owner.rename ρ) s (c.rename ρ)).run h) := by
  unfold grow
  cases s.selector.index? with
  | none => exact .ok m (.refl ρ g) ⟨has_c, rfl⟩
  | some index =>
    simp only [Running.run_bind, Running.run_get]
    rcases m.grow has_c index with ⟨small, small'⟩ | ⟨ρ', c', g', h', grown, grown', m', onward, has'⟩
    · simp only [small, small']
      exact .ok m (.refl ρ g) ⟨has_c, rfl⟩
    simp only [grown, grown', Running.run_bind, Running.run_set]
    by_cases other : c' = c
    · subst other
      simp only [onward.kept c' has_c, ne_eq, not_true_eq_false, if_false]
      exact .ok m' onward ⟨has', (onward.kept c' has_c).symm⟩
    have other' : c'.rename ρ' ≠ c.rename ρ := by
      rw [← onward.kept c has_c]
      exact fun same => other ((m'.embeds.rename_inj has' (onward.has c has_c)).1 same)
    simp only [ne_eq, other, other', not_false_eq_true, if_true]
    by_cases named : s.name = ""
    · simp only [named, if_true]
      exact .error
    simp only [named, if_false]
    rw [m'.embeds.tagOf_eq has', ← onward.kept owner has]
    refine .after onward (.bind (Registry.setChild_mirrored m' (onward.has owner has) has' s.name _)
      fun ρ₂ g₂ h₂ _ _ m₂ onward₂ _ => ?_)
    exact .ok m₂ (.refl ρ₂ g₂) ⟨onward₂.has c' has', (onward₂.kept c' has').symm⟩

/-- A value is stored under an owner on both sides, or on neither. -/
theorem storeChild_mirrored (m : base.Mirrors ρ g h) {owner v : Value}
    (has : g.Has owner) (has_v : g.Has v) (path : Path) (target : Option TypeTag) :
    Mirrored base ρ g Done ((storeChild r path target owner v).run g)
      ((storeChild r path target (owner.rename ρ) (v.rename ρ)).run h) := by
  unfold storeChild
  by_cases collection : path.last.isCollection
  case neg =>
    simp only [collection, Bool.not_false, if_true, Running.run_bind, Running.run_get, Value.isNull_rename,
      m.embeds.tagOf_eq has_v]
    exact Registry.setChild_mirrored m has has_v path.last.name _
  simp only [collection, Bool.not_true, Bool.false_eq_true, if_false]
  cases path.last.selector.slot? with
  | none => exact .error
  | some slot =>
    refine .bind (Registry.child_mirrored m has path.last.name) fun ρ₁ g₁ h₁ c _ m₁ onward₁ same => ?_
    obtain ⟨has_c, rfl⟩ := same
    simp only [Value.isNull_rename]
    by_cases missing : c.isNull
    · simp only [missing, if_true]
      exact .error
    simp only [missing, Bool.false_eq_true, if_false]
    rw [← onward₁.kept owner has]
    refine .bind (grow_mirrored m₁ (onward₁.has owner has) has_c path path.last)
      fun ρ₂ g₂ h₂ c' _ m₂ onward₂ same => ?_
    obtain ⟨has_c', rfl⟩ := same
    have kept : v.rename ρ₂ = v.rename ρ := by
      rw [onward₂.kept v (onward₁.has v has_v), onward₁.kept v has_v]
    have stored := m₂.storeElement has_c' (onward₂.has v (onward₁.has v has_v)) path slot
    rw [kept] at stored
    simp only [Running.run_bind, Running.run_get, Running.run_liftExcept]
    rcases stored with ⟨e, e', fails, fails'⟩ | ⟨g₃, h₃, stores, stores', m₃, onward₃⟩
    · simp only [fails, fails']
      exact .error
    · simp only [stores, stores', Running.run_set]
      exact .ok m₃ onward₃ trivial

/-! ## Documents -/

/-- A document shows what another one shows, in which nodes may have been left behind. -/
structure Mirrors (base : Graph) (ρ : Renaming) (w w' : Writer) : Prop where
  graph : base.Mirrors ρ w.graph w'.graph
  has : w.graph.Has w.root
  root : w'.root = w.root.rename ρ

namespace Mirrors

variable {w w₁ w' : Writer}

/-- A store that fails in the other document leaves nodes behind. -/
theorem untouched (m : Mirrors base ρ w w₁) (same : w₁.Untouched w') : Mirrors base ρ w w' :=
  ⟨m.graph.widened same.graph, m.has, same.root.trans m.root⟩

theorem of_same (m : Mirrors base ρ w w₁) (graph : w'.graph = w₁.graph) (root : w'.root = w₁.root) :
    Mirrors base ρ w w' :=
  ⟨graph ▸ m.graph, m.has, root.trans m.root⟩

theorem contentWithin_eq (m : Mirrors base ρ w w') (depth : Nat) :
    w'.graph.contentWithin depth w'.root = w.graph.contentWithin depth w.root := by
  rw [m.root, contentWithin_rename m.graph.closed m.graph.embeds depth m.has]

end Mirrors

/-- A place of the root is made addressable on both sides. -/
theorem withRootPlace_mirrors {w w' : Writer} (m : Mirrors base ρ w w') (slot : Slot) :
    ∃ ρ', Mirrors base ρ' (w.withRootPlace slot) (w'.withRootPlace slot) := by
  cases slot with
  | key key => exact ⟨ρ, m⟩
  | index n =>
    unfold withRootPlace growRoot
    simp only [Running.state_modify, m.root]
    rcases m.graph.grow m.has n with ⟨small, small'⟩ | ⟨ρ', c', g', h', grown, grown', m', -, has'⟩
    · simp only [small, small']
      exact ⟨ρ, m⟩
    · simp only [grown, grown']
      exact ⟨ρ', m', has', rfl⟩

/-- What becomes of a store in two documents: it fails in both, or succeeds in both and they show the same again. -/
inductive StoresAlike (base : Graph) : Except BindError Unit × Writer → Except BindError Unit × Writer → Prop where
  | stored {ρ : Renaming} {w w' : Writer} (mirrors : Mirrors base ρ w w') : StoresAlike base (.ok ⟨⟩, w) (.ok ⟨⟩, w')
  | failed {e e' : BindError} {w w' : Writer} : StoresAlike base (.error e, w) (.error e', w')

/-- The root takes a value of the base on both sides, or on neither. -/
theorem storeRoot_stores {w w' : Writer} (m : Mirrors base ρ w w') {v : Value} (has : base.Has v)
    (path : Path) (s : Segment) :
    StoresAlike base ((storeRoot path s v).run w) ((storeRoot path s v).run w') := by
  cases hslot : s.selector.slot? with
  | none =>
    rw [storeRoot_of_plain hslot, storeRoot_of_plain hslot]
    exact .stored ⟨m.graph, m.graph.has v has, (m.graph.fixed v has).symm⟩
  | some slot =>
    rw [storeRoot_of_slot hslot, storeRoot_of_slot hslot]
    obtain ⟨ρ', m'⟩ := withRootPlace_mirrors m slot
    have stored := m'.graph.storeElement m'.has (m'.graph.has v has) path slot
    rw [m'.graph.fixed v has, ← m'.root] at stored
    rcases stored with ⟨e, e', fails, fails'⟩ | ⟨g, h, stores, stores', mirrors, onward⟩
    · simp only [fails, fails']
      exact .failed
    · simp only [stores, stores']
      exact .stored ⟨mirrors, onward.has _ m'.has, m'.root⟩

/-- A queued value of the base is stored in both documents, or in neither. -/
theorem apply_stores {w w' : Writer} (m : Mirrors base ρ w w')
    {entry : PendingWrite} (has_owner : ∀ o, entry.owner = some o → base.Has o) {v : Value}
    (has : base.Has v) : StoresAlike base ((apply r entry v).run w) ((apply r entry v).run w') := by
  unfold apply
  cases howner : entry.owner with
  | none => exact storeRoot_stores m has _ _
  | some owner =>
    have has_o := has_owner owner howner
    have stored := storeChild_mirrored (r := r) m.graph (m.graph.has owner has_o) (m.graph.has v has)
      entry.field.path entry.target
    rw [m.graph.fixed owner has_o, m.graph.fixed v has] at stored
    simp only [onGraph_run]
    generalize (storeChild r entry.field.path entry.target owner v).run w.graph = a at stored ⊢
    generalize (storeChild r entry.field.path entry.target owner v).run w'.graph = b at stored ⊢
    cases stored with
    | error => exact .failed
    | ok mirrors onward _ => exact .stored ⟨mirrors, onward.has _ m.has, m.root.trans (onward.kept _ m.has).symm⟩

end Writer

end FieldBinding
