/-!
# Entries in key order

`Entries α` maps texts to values of `α`.  The entries are kept in ascending order of their keys, so two maps
with the same entries are equal and the order of a walk over a map does not depend on how it was filled.
Keys are compared by their code points.
-/

namespace FieldBinding

/-- A map from texts, with its entries in ascending order of keys. -/
structure Entries (α : Type) where
  toList : List (String × α)
  ascending : toList.Pairwise (fun a b => a.1 < b.1)

namespace Entries

variable {α : Type}

/-- The map without entries. -/
def empty : Entries α :=
  ⟨[], .nil⟩

instance : Inhabited (Entries α) := ⟨empty⟩

/-- The keys in ascending order. -/
def keys (m : Entries α) : List String :=
  m.toList.map (·.1)

/-- The number of entries. -/
def size (m : Entries α) : Nat :=
  m.toList.length

/-- The value of a key. -/
def get? (m : Entries α) (key : String) : Option α :=
  m.toList.lookup key

/-- Whether the map has a key. -/
def contains (m : Entries α) (key : String) : Bool :=
  (m.get? key).isSome

/-- An ascending list with one more entry, which replaces an entry of the same key. -/
def insertList (key : String) (value : α) : List (String × α) → List (String × α)
  | [] => [(key, value)]
  | (k, v) :: rest =>
    if key < k then (key, value) :: (k, v) :: rest
    else if key = k then (key, value) :: rest
    else (k, v) :: insertList key value rest

theorem mem_insertList {key : String} {value : α} {entries : List (String × α)} {e : String × α}
    (h : e ∈ insertList key value entries) : e = (key, value) ∨ e ∈ entries := by
  induction entries with
  | nil => simpa [insertList] using h
  | cons entry rest ih =>
    obtain ⟨k, v⟩ := entry
    rw [insertList] at h
    split at h
    · simpa using h
    · split at h
      · rcases List.mem_cons.1 h with h | h
        · exact .inl h
        · exact .inr (List.mem_cons_of_mem _ h)
      · rcases List.mem_cons.1 h with h | h
        · exact .inr (by simp [h])
        · rcases ih h with h | h
          · exact .inl h
          · exact .inr (List.mem_cons_of_mem _ h)

theorem lt_of_not_lt_of_ne {a b : String} (h : ¬ a < b) (hne : a ≠ b) : b < a := by
  rcases Decidable.em (b < a) with hlt | hlt
  · exact hlt
  · exact absurd (String.le_antisymm (String.not_lt.1 hlt) (String.not_lt.1 h)) hne

theorem pairwise_insertList {key : String} {value : α} {entries : List (String × α)}
    (h : entries.Pairwise (fun a b => a.1 < b.1)) :
    (insertList key value entries).Pairwise (fun a b => a.1 < b.1) := by
  induction entries with
  | nil => simp [insertList]
  | cons entry rest ih =>
    obtain ⟨k, v⟩ := entry
    rw [List.pairwise_cons] at h
    rw [insertList]
    split
    · next hlt =>
      refine .cons ?_ (.cons h.1 h.2)
      intro e he
      rcases List.mem_cons.1 he with he | he
      · simpa [he] using hlt
      · exact String.lt_trans hlt (h.1 e he)
    · next hlt =>
      split
      · next heq =>
        subst heq
        exact .cons h.1 h.2
      · next hne =>
        refine .cons ?_ (ih h.2)
        intro e he
        rcases mem_insertList he with he | he
        · simpa [he] using lt_of_not_lt_of_ne hlt hne
        · exact h.1 e he

/-- The map with one more entry, which replaces an entry of the same key. -/
def insert (m : Entries α) (key : String) (value : α) : Entries α :=
  ⟨insertList key value m.toList, pairwise_insertList m.ascending⟩

/-- The map with the entries of a list; of several entries with one key the last counts. -/
def ofList (entries : List (String × α)) : Entries α :=
  entries.foldl (fun m e => m.insert e.1 e.2) empty

theorem lookup_cons_eq (other key : String) (value : α) (rest : List (String × α)) :
    List.lookup other ((key, value) :: rest) =
      if other = key then some value else rest.lookup other := by
  rw [List.lookup_cons]
  by_cases h : other = key <;> simp [h, beq_false_of_ne]

theorem lookup_insertList (key other : String) (value : α) (entries : List (String × α)) :
    (insertList key value entries).lookup other =
      if other = key then some value else entries.lookup other := by
  induction entries with
  | nil => rw [insertList, lookup_cons_eq]
  | cons entry rest ih =>
    obtain ⟨k, v⟩ := entry
    rw [insertList]
    split
    · rw [lookup_cons_eq]
    · split
      · next heq =>
        subst heq
        simp only [lookup_cons_eq]
        split <;> rfl
      · next hne =>
        simp only [lookup_cons_eq, ih]
        by_cases hk : other = k
        · simp [hk, Ne.symm hne]
        · simp [hk]

/-- A key that has been inserted has its new value; every other key keeps what it had. -/
theorem get?_insert (m : Entries α) (key other : String) (value : α) :
    (m.insert key value).get? other = if other = key then some value else m.get? other :=
  lookup_insertList key other value m.toList

theorem mem_of_get? {m : Entries α} {key : String} {value : α} (h : m.get? key = some value) :
    (key, value) ∈ m.toList := by
  rw [get?] at h
  generalize m.toList = entries at h
  induction entries with
  | nil => simp at h
  | cons entry rest ih =>
    obtain ⟨k, v⟩ := entry
    rw [lookup_cons_eq] at h
    split at h
    · next heq =>
      rw [Option.some.injEq] at h
      simp [heq, h]
    · exact List.mem_cons_of_mem _ (ih h)

/-- Keys ascend, so no entry is hidden behind another. -/
theorem get?_of_mem {m : Entries α} {key : String} {value : α} (h : (key, value) ∈ m.toList) :
    m.get? key = some value := by
  have ascending := m.ascending
  rw [get?]
  generalize m.toList = entries at h ascending
  induction entries with
  | nil => simp at h
  | cons entry rest ih =>
    obtain ⟨k, v⟩ := entry
    rw [List.pairwise_cons] at ascending
    rw [lookup_cons_eq]
    rcases List.mem_cons.1 h with heq | hmem
    · cases heq
      rw [if_pos rfl]
    · have ne : key ≠ k := (String.ne_of_lt (ascending.1 _ hmem)).symm
      rw [if_neg ne]
      exact ih hmem ascending.2

/-! ## The same keys with other values -/

variable {β : Type}

/-- The map with every value changed by a function. -/
def map (f : α → β) (m : Entries α) : Entries β :=
  ⟨m.toList.map fun e => (e.1, f e.2), m.ascending.map _ fun _ _ h => h⟩

@[simp]
theorem toList_map (f : α → β) (m : Entries α) :
    (m.map f).toList = m.toList.map fun e => (e.1, f e.2) := rfl

@[simp]
theorem map_self (m : Entries α) : m.map (fun a => a) = m := by
  simp [map]

theorem lookup_map (f : α → β) (key : String) (entries : List (String × α)) :
    (entries.map fun e => (e.1, f e.2)).lookup key = (entries.lookup key).map f := by
  induction entries with
  | nil => rfl
  | cons entry rest ih =>
    rw [List.map_cons, lookup_cons_eq, lookup_cons_eq, ih]
    split <;> rfl

theorem get?_map (f : α → β) (m : Entries α) (key : String) :
    (m.map f).get? key = (m.get? key).map f :=
  lookup_map f key m.toList

theorem insertList_map (f : α → β) (key : String) (value : α) (entries : List (String × α)) :
    insertList key (f value) (entries.map fun e => (e.1, f e.2)) =
      (insertList key value entries).map fun e => (e.1, f e.2) := by
  induction entries with
  | nil => rfl
  | cons entry rest ih =>
    rw [List.map_cons, insertList, insertList, ih]
    split
    · rfl
    · split <;> rfl

theorem map_insert (f : α → β) (m : Entries α) (key : String) (value : α) :
    (m.insert key value).map f = (m.map f).insert key (f value) := by
  simp only [map, insert, insertList_map]

theorem map_ofList (f : α → β) (entries : List (String × α)) :
    (ofList entries).map f = ofList (entries.map fun e => (e.1, f e.2)) := by
  have go : ∀ (entries : List (String × α)) (m : Entries α),
      (entries.foldl (fun m e => m.insert e.1 e.2) m).map f =
        (entries.map fun e => (e.1, f e.2)).foldl (fun m e => m.insert e.1 e.2) (m.map f) := by
    intro entries
    induction entries with
    | nil => exact fun _ => rfl
    | cons entry rest ih =>
      intro m
      rw [List.foldl_cons, ih, map_insert, List.map_cons, List.foldl_cons]
  exact go entries empty

end Entries

end FieldBinding
