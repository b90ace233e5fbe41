import FieldBinding.Registry.Descriptor

/-!
# Registries of types

A `Registry` holds the descriptions of the types that are known, by their names.

`Registry.lineage` lists a type and its ancestors, the nearest first.  The ancestors of a type may lead in
circles or to names that are not registered, so the walk remembers which names it has met.  It ends because
every step either shortens the queue or meets a registered name for the first time.

`Registry.instantiate` makes a value for a declared type.
-/

namespace FieldBinding

/-- The types that are known, by their names. -/
structure Registry where
  types : Entries Descriptor

namespace Registry

/-- The registry without types. -/
def empty : Registry :=
  ⟨.empty⟩

/-- The registry with one more type, which replaces a type of its name. -/
def register (r : Registry) (d : Descriptor) : Registry :=
  ⟨r.types.insert d.name d⟩

/-- The registry with some types, registered in order. -/
def ofList (ds : List Descriptor) : Registry :=
  ds.foldl register empty

/-- The description of a type. -/
def get? (r : Registry) (name : String) : Option Descriptor :=
  r.types.get? name

/-- Whether a type is registered. -/
def contains (r : Registry) (name : String) : Bool :=
  r.types.contains name

/-! ## Lineage -/

/-- The registered names that have not been met. -/
def unmet (r : Registry) (met : List String) : List String :=
  r.types.keys.filter (· ∉ met)

theorem length_filter_lt {α : Type} {p q : α → Bool} {l : List α} {a : α} (ha : a ∈ l)
    (hp : p a = true) (hq : q a = false) (h : ∀ b, q b = true → p b = true) :
    (l.filter q).length < (l.filter p).length := by
  induction l with
  | nil => simp at ha
  | cons b l ih =>
    have hle : ∀ l : List α, (l.filter q).length ≤ (l.filter p).length := by
      intro l
      induction l with
      | nil => simp
      | cons c l ihl =>
        by_cases hqc : q c
        · simpa [hqc, h c hqc] using ihl
        · by_cases hpc : p c <;> simp [hqc, hpc] <;> omega
    rcases List.mem_cons.1 ha with rfl | ha
    · have := hle l
      simp [hp, hq]
      omega
    · have := ih ha
      by_cases hqb : q b
      · simpa [hqb, h b hqb] using this
      · by_cases hpb : p b <;> simp [hqb, hpb] <;> omega

theorem mem_keys_of_get? {r : Registry} {name : String} {d : Descriptor} (h : r.get? name = some d) :
    name ∈ r.types.keys := by
  simp only [get?, Entries.get?] at h
  simp only [Entries.keys]
  generalize r.types.toList = entries at h
  induction entries with
  | nil => simp at h
  | cons e rest ih =>
    obtain ⟨k, v⟩ := e
    rw [Entries.lookup_cons_eq] at h
    split at h
    · next heq => simp [heq]
    · exact List.mem_cons_of_mem _ (ih h)

theorem not_mem_keys_of_get? {r : Registry} {name : String} (h : r.get? name = none) :
    name ∉ r.types.keys := by
  simp only [get?, Entries.get?] at h
  simp only [Entries.keys]
  generalize r.types.toList = entries at h
  induction entries with
  | nil => simp
  | cons e rest ih =>
    obtain ⟨k, v⟩ := e
    rw [Entries.lookup_cons_eq] at h
    split at h
    · contradiction
    · next hne => simpa [hne] using ih h

theorem unmet_cons_lt {r : Registry} {name : String} {met : List String} {d : Descriptor}
    (hmet : name ∉ met) (h : r.get? name = some d) :
    (r.unmet (name :: met)).length < (r.unmet met).length :=
  length_filter_lt (mem_keys_of_get? h) (by simpa using hmet) (by simp) (fun b hb => by simp_all)

theorem unmet_cons_eq {r : Registry} {name : String} {met : List String} (h : r.get? name = none) :
    r.unmet (name :: met) = r.unmet met := by
  refine List.filter_congr fun b hb => ?_
  have hne : b ≠ name := fun heq => not_mem_keys_of_get? h (heq ▸ hb)
  simp [hne]

/-- Walks a queue of names, most nearly related first, past the names that have been met. -/
def walk (r : Registry) (met : List String) (queue : List String) : List Descriptor :=
  match queue with
  | [] => []
  | name :: rest =>
    if _ : name ∈ met then walk r met rest
    else
      match _ : r.get? name with
      | none => walk r (name :: met) rest
      | some d => d :: walk r (name :: met) (rest ++ d.ancestors)
termination_by ((r.unmet met).length, queue.length)
decreasing_by
  · exact Prod.Lex.right _ (by simp)
  · rw [unmet_cons_eq ‹_›]
    exact Prod.Lex.right _ (by simp)
  · exact Prod.Lex.left _ _ (unmet_cons_lt ‹_› ‹_›)

section Walk

variable {r : Registry} {name : String} {met rest : List String}

theorem walk_nil (r : Registry) (met : List String) : r.walk met [] = [] := by
  rw [walk]

theorem walk_met (known : name ∈ met) : r.walk met (name :: rest) = r.walk met rest := by
  rw [walk, dif_pos known]

theorem walk_unknown (new : name ∉ met) (unknown : r.get? name = none) :
    r.walk met (name :: rest) = r.walk (name :: met) rest := by
  rw [walk, dif_neg new]
  split
  · rfl
  · next found => simp [unknown] at found

theorem walk_known {d : Descriptor} (new : name ∉ met) (known : r.get? name = some d) :
    r.walk met (name :: rest) = d :: r.walk (name :: met) (rest ++ d.ancestors) := by
  rw [walk, dif_neg new]
  split
  · next unknown => simp [known] at unknown
  · next found => rw [Option.some.inj (known.symm.trans found)]

end Walk

/-- A type and all its registered ancestors, the nearest first. -/
def lineage (r : Registry) (name : String) : List Descriptor :=
  r.walk [] [name]

/-- Whether a value of one type can stand where another is asked for: it is that type, or declares it
somewhere among its ancestors. -/
def isAssignable (r : Registry) (name ancestor : String) : Bool :=
  name = ancestor ∨
    (r.lineage name).any fun d => d.name = ancestor ∨ ancestor ∈ d.ancestors

/-! ## New values -/

/-- The object that a blueprint describes, made of new nodes. -/
def build (g : Graph) (b : Blueprint) : Value × Graph :=
  g.plant (.object b.typeName b.members)

/-- A value for a declared type.  Collections are empty, primitives that are never null are zero, anything at
all is an empty map, and other scalars are null. -/
def instantiate (r : Registry) (g : Graph) : TypeTag → Except BindError (Value × Graph)
  | .complex name =>
    match r.get? name with
    | none => .error (.unknownType name)
    | some d =>
      if d.isAbstract then .error (.abstractType name)
      else
        match d.blueprint with
        | some b => .ok (build g b)
        | none => .ok (g.newObject d.defaultObject)
  | .sequence kind element => .ok (g.newSequence kind ⟨element, []⟩)
  | .map element => .ok (g.newMap ⟨element, .empty⟩)
  | .any => .ok (g.newMap ⟨.any, .empty⟩)
  | .primitive kind => .ok (.scalar (.zero kind), g)
  | .scalar _ => .ok (.null, g)

end Registry

end FieldBinding
