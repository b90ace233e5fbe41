import FieldBinding.Proofs.Registry.Lineage

/-!
# What a lineage holds

The ancestors that types list form a graph with any shape: types may list themselves or each other, an ancestor
may be listed twice, and the names that are listed need not be registered.  The loop behind `Registry.lineage`
takes names from a queue that keeps growing, and notices only when it takes a name whether the type has been listed
before.  `Registry.Gathers` is that loop, with the number of names that it takes; since a type is listed once, the
queue gets every listed ancestor once and runs empty.

Main results:

* `Registry.walk_gathers` — the loop ends, and how many names it takes.
* `Registry.distance_eq` — the soonest way to a type is a shortest one.
* `Registry.lineage_exact` — the lineage holds the types that can be reached, each once and the near ones first,
  and a type can stand for just those that can be reached from it.
-/

namespace FieldBinding.Registry

variable {r : Registry} {name last : String} {is : List Nat} {d : Descriptor}

/-! ## Names of registered types -/

/-- A type is registered under its name. -/
theorem ofList_named (ds : List Descriptor) (name : String) (d : Descriptor)
    (known : (ofList ds).get? name = some d) : d.name = name := by
  have kept : ∀ (ds : List Descriptor) (r : Registry), (∀ name d, r.get? name = some d → d.name = name) →
      ∀ name d, (ds.foldl register r).get? name = some d → d.name = name := by
    intro ds
    induction ds with
    | nil => exact fun r named => named
    | cons e rest ih =>
      refine fun r named => ih (r.register e) fun name d known => ?_
      rw [get?, register, Entries.get?_insert] at known
      split at known
      · next same => rw [← Option.some.inj known, same]
      · exact named name d known
  exact kept ds empty (fun _ _ known => by cases known) name d known

/-! ## The loop -/

/-- The loop over a queue of names.  From the names that have been met and those in the queue it comes to an end
after it has taken a number of names, and lists some types on the way. -/
inductive Gathers (r : Registry) : List String → List String → Nat → List Descriptor → Prop
  | done (met : List String) : Gathers r met [] 0 []
  | met {met rest : List String} {n : Nat} {ds : List Descriptor} {name : String} (known : name ∈ met)
      (onward : Gathers r met rest n ds) : Gathers r met (name :: rest) (n + 1) ds
  | unknown {met rest : List String} {n : Nat} {ds : List Descriptor} {name : String} (new : name ∉ met)
      (unknown : r.get? name = none) (onward : Gathers r (name :: met) rest n ds) :
      Gathers r met (name :: rest) (n + 1) ds
  | listed {met rest : List String} {n : Nat} {ds : List Descriptor} {name : String} {d : Descriptor}
      (new : name ∉ met) (known : r.get? name = some d)
      (onward : Gathers r (name :: met) (rest ++ d.ancestors) n ds) : Gathers r met (name :: rest) (n + 1) (d :: ds)

/-- The loop can come to one end only. -/
theorem Gathers.unique {met queue : List String} {n n' : Nat} {ds ds' : List Descriptor}
    (gathers : r.Gathers met queue n ds) (gathers' : r.Gathers met queue n' ds') : n = n' ∧ ds = ds' := by
  induction gathers generalizing n' ds' with
  | done met =>
    cases gathers'
    exact ⟨rfl, rfl⟩
  | met known _ ih =>
    cases gathers' with
    | met _ onward => exact (ih onward).imp (congrArg (· + 1)) id
    | unknown new => exact absurd known new
    | listed new => exact absurd known new
  | unknown new unknown _ ih =>
    cases gathers' with
    | met known => exact absurd known new
    | unknown _ _ onward => exact (ih onward).imp (congrArg (· + 1)) id
    | listed _ known => simp [unknown] at known
  | listed new known _ ih =>
    cases gathers' with
    | met met => exact absurd met new
    | unknown _ unknown => simp [unknown] at known
    | listed _ known' onward =>
      obtain rfl := Option.some.inj (known.symm.trans known')
      exact (ih onward).imp (congrArg (· + 1)) (congrArg (_ :: ·))

/-- The number of ancestors that some types list. -/
def listings (ds : List Descriptor) : Nat :=
  (ds.map (·.ancestors.length)).sum

/-- The loop comes to an end.  It takes the names that are in the queue and the ancestors of the types that it
lists. -/
theorem walk_gathers (r : Registry) (met queue : List String) :
    r.Gathers met queue (queue.length + listings (r.walk met queue)) (r.walk met queue) := by
  induction met, queue using walk.induct r with
  | case1 met =>
    rw [walk_nil]
    exact .done met
  | case2 met name rest known ih =>
    rw [walk_met known, List.length_cons, Nat.add_right_comm]
    exact .met known ih
  | case3 met name rest new unknown ih =>
    rw [walk_unknown new unknown, List.length_cons, Nat.add_right_comm]
    exact .unknown new unknown ih
  | case4 met name rest new d known ih =>
    have eq : r.walk met (name :: rest) = d :: r.walk (name :: met) (rest ++ d.ancestors) := walk_known new known
    have count : (name :: rest).length + listings (r.walk met (name :: rest)) =
        (rest ++ d.ancestors).length + listings (r.walk (name :: met) (rest ++ d.ancestors)) + 1 := by
      simp only [eq, listings, List.map_cons, List.sum_cons, List.length_cons, List.length_append]
      omega
    rw [count, eq]
    exact .listed new known ih

/-- A registered type stands at the head of its lineage. -/
theorem lineage_head? (known : r.get? name = some d) : (r.lineage name).head? = some d := by
  obtain ⟨n, gathers⟩ : ∃ n, r.Gathers [] [name] n (r.lineage name) := ⟨_, r.walk_gathers [] [name]⟩
  generalize r.lineage name = listed at gathers
  cases gathers with
  | met known => cases known
  | unknown _ unknown => simp [known] at unknown
  | listed _ found => rw [List.head?_cons, Option.some.inj (known.symm.trans found)]

/-! ## Ways -/

/-- What can be reached is the type itself and what it derives from. -/
theorem reaches_iff : Relation.ReflTransGen r.Lists name last ↔ ∃ is, r.Ascent name is last := by
  rw [Relation.reflTransGen_iff_eq_or_transGen]
  constructor
  · rintro (rfl | derives)
    · exact ⟨[], .here _⟩
    · obtain ⟨is, -, ascent⟩ := derives_iff.1 derives
      exact ⟨is, ascent⟩
  · rintro ⟨is, ascent⟩
    obtain rfl | ⟨i, is, rfl⟩ := is.eq_nil_or_concat'
    · cases ascent
      exact .inl rfl
    · exact .inr (derives_iff.2 ⟨_, by simp, ascent⟩)

/-- The number of links on a shortest way from one type up to another. -/
noncomputable def distance (r : Registry) (name last : String) : Nat :=
  sInf {n | ∃ is, r.Ascent name is last ∧ is.length = n}

/-- The soonest way to a type is a shortest one. -/
theorem distance_eq (soonest : r.Soonest name is last) : r.distance name last = is.length := by
  refine le_antisymm (Nat.sInf_le ⟨is, soonest.ascent, rfl⟩) ?_
  obtain ⟨js, ascent, length⟩ : r.distance name last ∈ {n | ∃ is, r.Ascent name is last ∧ is.length = n} :=
    Nat.sInf_mem ⟨_, is, soonest.ascent, rfl⟩
  by_contra shorter
  exact soonest.least js ascent (.of_length_lt (by omega))

/-! ## Lineages -/

section Named

variable (named : ∀ name d, r.get? name = some d → d.name = name)

include named

/-- The lineage holds the registered types that can be reached. -/
theorem mem_lineage_iff : d ∈ r.lineage name ↔ r.get? d.name = some d ∧ Relation.ReflTransGen r.Lists name d.name := by
  constructor
  · intro mem
    obtain ⟨is, soonest, known⟩ := mem_lineage named mem
    exact ⟨known, reaches_iff.2 ⟨is, soonest.ascent⟩⟩
  · rintro ⟨known, reached⟩
    obtain ⟨is, ascent⟩ := reaches_iff.1 reached
    obtain ⟨js, soonest⟩ := ascent.exists_soonest
    obtain ⟨found, eq, -, mem_iff⟩ := r.lineage_sorted name
    rw [eq]
    exact List.mem_map_of_mem (f := (·.2)) ((mem_iff js d).2 ⟨_, soonest, known⟩)

/-- No two types of a lineage have the same name. -/
theorem nodup_names_lineage (name : String) : ((r.lineage name).map (·.name)).Nodup := by
  refine (lineage_nodup named name).map_on fun d mem d' mem' same => ?_
  obtain ⟨-, -, known⟩ := mem_lineage named mem
  obtain ⟨-, -, known'⟩ := mem_lineage named mem'
  rw [same] at known
  exact Option.some.inj (known.symm.trans known')

/-- Near types come first. -/
theorem lineage_near_first (name : String) :
    (r.lineage name).Pairwise fun d e => r.distance name d.name ≤ r.distance name e.name := by
  obtain ⟨found, eq, sorted, mem_iff⟩ := r.lineage_sorted name
  rw [eq, List.pairwise_map]
  refine sorted.imp_of_mem fun {f f'} mem mem' sooner => ?_
  obtain ⟨last, soonest, known⟩ := (mem_iff f.1 f.2).1 mem
  obtain ⟨last', soonest', known'⟩ := (mem_iff f'.1 f'.2).1 mem'
  obtain rfl := named last _ known
  obtain rfl := named last' _ known'
  rw [distance_eq soonest, distance_eq soonest']
  exact sooner.length_le

/-- A type can stand for itself and for what it derives from, registered or not. -/
theorem isAssignable_iff {a : String} : r.isAssignable name a ↔ name = a ∨ r.Derives name a := by
  simp only [isAssignable, List.any_eq_true, decide_eq_true_eq]
  refine or_congr_right' fun apart => ⟨?_, fun derives => ?_⟩
  · rintro ⟨d, mem, rfl | listed⟩
    · obtain ⟨-, reached⟩ := (mem_lineage_iff named).1 mem
      exact (Relation.reflTransGen_iff_eq_or_transGen.1 reached).resolve_left (Ne.symm apart)
    · obtain ⟨known, reached⟩ := (mem_lineage_iff named).1 mem
      exact .tail' reached ⟨d, known, listed⟩
  · obtain ⟨next, reached, d, known, listed⟩ := Relation.TransGen.tail'_iff.1 derives
    obtain rfl := named next d known
    exact ⟨d, (mem_lineage_iff named).2 ⟨known, reached⟩, .inr listed⟩

end Named

/-- What a lineage holds, in every registry.  The loop comes to an end, and takes the name itself and the ancestors of
the types that it lists, each as often as it is listed.  The types are those that can be reached over registered types;
each is there once, the type itself in front and the near ones before the far ones.

A type can stand for another exactly if it is the other or reaches it, whether or not the other is registered; so it
can stand for itself, and for what can stand for a third. -/
theorem lineage_exact (ds : List Descriptor) (name : String) :
    let r := ofList ds
    (∀ n found, r.Gathers [] [name] n found ↔ n = 1 + listings (r.lineage name) ∧ found = r.lineage name) ∧
      ((r.lineage name).map (·.name)).Nodup ∧
      (∀ d, d ∈ r.lineage name ↔ r.get? d.name = some d ∧ Relation.ReflTransGen r.Lists name d.name) ∧
      (∀ d, r.get? name = some d → (r.lineage name).head? = some d) ∧
      (r.lineage name).Pairwise (fun d e => r.distance name d.name ≤ r.distance name e.name) ∧
      (∀ a, r.isAssignable name a ↔ name = a ∨ r.Derives name a) ∧ r.isAssignable name name ∧
      ∀ a b, r.isAssignable name a → r.isAssignable a b → r.isAssignable name b := by
  intro r
  have named : ∀ name d, r.get? name = some d → d.name = name := ofList_named ds
  refine ⟨fun n found => ⟨fun gathers => gathers.unique (r.walk_gathers [] [name]), ?_⟩, nodup_names_lineage named name,
    fun d => mem_lineage_iff named, fun d => lineage_head?, lineage_near_first named name,
    fun a => isAssignable_iff named, (isAssignable_iff named).2 (.inl rfl), fun a b first second => ?_⟩
  · rintro ⟨rfl, rfl⟩
    exact r.walk_gathers [] [name]
  · rw [isAssignable_iff named] at first second ⊢
    rcases first with rfl | first
    · exact second
    · rcases second with rfl | second
      · exact .inr first
      · exact .inr (first.trans second)

/-- Two types that list each other, one of them twice, and an ancestor that is not registered. -/
example :
    let a : Descriptor := { Descriptor.ofName "A" with ancestors := ["B", "A", "B", "Root"] }
    let b : Descriptor := { Descriptor.ofName "B" with ancestors := ["A"] }
    let r := ofList [a, b]
    (r.lineage "A").map (·.name) = ["A", "B"] ∧ r.isAssignable "B" "Root" = true := by
  cbv

end FieldBinding.Registry
