import FieldBinding.Navigation

/-!
# Running computations

A `Step` and a `Writing` are computations on a state that may fail; what is done before a failure stays done.
The lemmas here run them: from the state at the start to the answer and the state at the end.  They are tagged
for `simp`, so a `do` block is run by unfolding it once.

`Registry.child_run` sums up the only computation that both the reader and the writer use.
-/

namespace FieldBinding

namespace Running

variable {σ ε α β : Type}

@[simp]
theorem run_pure (a : α) (s : σ) : (pure a : ExceptT ε (StateM σ) α).run s = (.ok a, s) := rfl

@[simp]
theorem run_throw (e : ε) (s : σ) :
    (throw e : ExceptT ε (StateM σ) α).run s = (.error e, s) := rfl

/-- What follows a failure is not run. -/
@[simp]
theorem run_bind (x : ExceptT ε (StateM σ) α) (f : α → ExceptT ε (StateM σ) β) (s : σ) :
    (x >>= f).run s =
      match x.run s with
      | (.ok a, s') => (f a).run s'
      | (.error e, s') => (.error e, s') := by
  show (match x.run s with | (a, s') => ExceptT.bindCont f a s' : Except ε β × σ) = _
  rcases x.run s with ⟨e | a, s'⟩ <;> rfl

/-- A run of a sequence stops in its first part, or goes on to the second. -/
theorem run_bind_cases {x : ExceptT ε (StateM σ) α} {f : α → ExceptT ε (StateM σ) β} {s s' : σ}
    {result : Except ε β} (h : (x >>= f).run s = (result, s')) :
    (∃ e, result = .error e ∧ x.run s = (.error e, s')) ∨
      ∃ a s₁, x.run s = (.ok a, s₁) ∧ (f a).run s₁ = (result, s') := by
  rw [run_bind] at h
  generalize x.run s = first at h
  obtain ⟨e | a, s₁⟩ := first
  · cases h
    exact .inl ⟨e, rfl, rfl⟩
  · exact .inr ⟨a, s₁, rfl, h⟩

theorem run_bind_ok {x : ExceptT ε (StateM σ) α} {f : α → ExceptT ε (StateM σ) β} {s s' : σ} {b : β}
    (h : (x >>= f).run s = (.ok b, s')) : ∃ a s₁, x.run s = (.ok a, s₁) ∧ (f a).run s₁ = (.ok b, s') := by
  obtain ⟨e, failed, -⟩ | rest := run_bind_cases h
  · cases failed
  · exact rest

@[simp]
theorem run_get (s : σ) : (get : ExceptT ε (StateM σ) σ).run s = (.ok s, s) := rfl

@[simp]
theorem run_set (s' s : σ) : (set s' : ExceptT ε (StateM σ) PUnit).run s = (.ok ⟨⟩, s') := rfl

@[simp]
theorem run_modify (f : σ → σ) (s : σ) :
    (modify f : ExceptT ε (StateM σ) PUnit).run s = (.ok ⟨⟩, f s) := rfl

@[simp]
theorem run_liftExcept (x : Except ε α) (s : σ) :
    (liftExcept x : ExceptT ε (StateM σ) α).run s = (x, s) := by
  cases x <;> rfl

/-- A computation that cannot fail runs within one that can. -/
@[simp]
theorem run_monadLift (x : StateM σ α) (s : σ) :
    (liftM x : ExceptT ε (StateM σ) α).run s = (.ok (x s).1, (x s).2) := rfl

@[simp]
theorem state_pure (a : α) (s : σ) : (pure a : StateM σ α) s = (a, s) := rfl

@[simp]
theorem state_bind (x : StateM σ α) (f : α → StateM σ β) (s : σ) :
    (x >>= f) s = f (x s).1 (x s).2 := rfl

@[simp]
theorem state_get (s : σ) : (get : StateM σ σ) s = (s, s) := rfl

@[simp]
theorem state_modify (f : σ → σ) (s : σ) : (modify f : StateM σ PUnit) s = (⟨⟩, f s) := rfl

/-- A run whose result is known. -/
theorem eq_of_fst {β : Type} {p : α × β} {a : α} (h : p.1 = a) : p = (a, p.2) := by
  rw [← h]

end Running

namespace Step

variable {α : Type}

@[simp]
theorem alloc_run (f : Graph → α × Graph) (g : Graph) :
    (alloc f).run g = (.ok (f g).1, (f g).2) := rfl

theorem attempt_run (f : Graph → Except BindError (α × Graph)) (g : Graph) :
    (attempt f).run g =
      match f g with
      | .ok (a, g') => (.ok a, g')
      | .error e => (.error e, g) := by
  unfold attempt
  simp only [Running.run_bind, Running.run_get]
  rcases f g with e | ⟨a, g'⟩ <;> rfl

@[simp]
theorem ofYield_held (v : Value) (g : Graph) : (ofYield (.held v)).run g = (.ok v, g) := rfl

@[simp]
theorem ofYield_fresh (t : Tree) (g : Graph) :
    (ofYield (.fresh t)).run g = (.ok (g.plant t).1, (g.plant t).2) := rfl

end Step

namespace Registry

/-- What the child of a value that a name stands for is made of. -/
def yieldAt (r : Registry) (g : Graph) (current : Value) (name : String) : Except BindError Yield :=
  if name = "" then .ok (.held current)
  else
    match current with
    | .object id =>
      let o := g.object id
      if !r.contains o.typeName then .ok (.held (rawMember o name))
      else
        match r.getter? o.typeName name with
        | some getter => .ok (getter.read g o)
        | none =>
          match r.member? o.typeName name with
          | some m => .ok (.held (rawMember o m.name))
          | none => .error (.noAccessor o.typeName name)
    | .map id => .ok (.held (((g.map id).entries.get? name).getD .null))
    | _ => .error (.noAccessor current.kindName name)

/-- Moving to a child makes new nodes only for what a getter yields afresh. -/
theorem child_run (r : Registry) (current : Value) (name : String) (g : Graph) :
    (r.child current name).run g =
      match r.yieldAt g current name with
      | .ok y => (Step.ofYield y).run g
      | .error e => (.error e, g) := by
  unfold child yieldAt
  by_cases hname : name = ""
  · simp [hname]
  · simp only [hname, if_false]
    cases current with
    | object id =>
      simp only [Running.run_bind, Running.run_get]
      by_cases known : r.contains (g.object id).typeName
      · simp only [known]
        cases r.getter? (g.object id).typeName name with
        | some getter => rfl
        | none => cases r.member? (g.object id).typeName name <;> rfl
      · simp only [known]
        rfl
    | _ => rfl

/-- A child that is held is found, and nothing changes. -/
theorem child_of_held {r : Registry} {v c : Value} {name : String} {g : Graph}
    (arrives : r.yieldAt g v name = .ok (.held c)) : (r.child v name).run g = (.ok c, g) := by
  rw [child_run, arrives]
  exact Step.ofYield_held c g

/-- A child that is not found leaves the graph as it was. -/
theorem child_error {r : Registry} {v : Value} {name : String} {g g' : Graph} {e : BindError}
    (h : (r.child v name).run g = (.error e, g')) : g' = g := by
  rw [child_run] at h
  cases hyield : r.yieldAt g v name with
  | error e =>
    simp only [hyield] at h
    exact (Prod.mk.inj h).2.symm
  | ok y =>
    simp only [hyield] at h
    cases y <;> cases h

end Registry

end FieldBinding
