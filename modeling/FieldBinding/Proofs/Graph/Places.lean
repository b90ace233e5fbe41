import FieldBinding.Proofs.Graph.Access
import FieldBinding.Proofs.Reading.Addressing

/-!
# The places of a collection

The places of a sequence are the indexes below its length, and those of a map are its keys.  So the places and their
order are known from the labels of a collection, once it is known to be a sequence or a map.

Main results:

* `Graph.places_eq` — two sequences, or two maps, with the same labels have the same places.
* `Graph.label_inj_of_mem_places` — the places of a collection have different labels.
-/

namespace FieldBinding

theorem Entries.keys_ascending {α : Type} (m : Entries α) : m.keys.Pairwise (· < ·) :=
  List.pairwise_map.2 m.ascending

namespace Graph

variable {g g' : Graph} {c c' : Value} {s t : Slot}

/-- The places of a collection, in order. -/
def places (g : Graph) (c : Value) : List Slot :=
  (g.elements c).map (·.1)

theorem places_sequence (g : Graph) (kind : SequenceKind) (id : NodeId) :
    g.places (.sequence kind id) = (List.range (g.sequence id).items.length).map .index := by
  rw [places, elements, List.map_map]
  refine List.ext_getElem (by simp) fun i _ _ => ?_
  simp

theorem places_map (g : Graph) (id : NodeId) : g.places (.map id) = (g.map id).entries.keys.map .key := by
  simp [places, elements, Entries.keys]

theorem mem_places_of_mem_elements {v : Value} (element : (s, v) ∈ g.elements c) : s ∈ g.places c :=
  List.mem_map_of_mem element

/-- A place is meant for the collection that has it. -/
theorem meantFor_of_mem_places (place : s ∈ g.places c) : (Access.slot s).meantFor c = true := by
  cases c with
  | sequence kind id =>
    rw [places_sequence] at place
    obtain ⟨n, -, rfl⟩ := List.mem_map.1 place
    rfl
  | map id =>
    rw [places_map] at place
    obtain ⟨key, -, rfl⟩ := List.mem_map.1 place
    rfl
  | _ => cases place

/-- Places that are meant for one collection are meant for the same collections. -/
theorem meantFor_congr (hs : (Access.slot s).meantFor c = true) (ht : (Access.slot t).meantFor c = true) :
    (Access.slot s).meantFor = (Access.slot t).meantFor := by
  funext v
  rcases Access.cases_of_meantFor hs with ⟨n, kind, id, rfl, rfl⟩ | ⟨key, id, rfl, rfl⟩ <;>
    rcases Access.cases_of_meantFor ht with ⟨_, _, _, rfl, same⟩ | ⟨_, _, rfl, same⟩ <;>
    cases same <;> cases v <;> rfl

/-- In front of an index of a collection there are all smaller indexes. -/
theorem index_mem_places {i n : Nat} (place : .index n ∈ g.places c) (lt : i < n) :
    .index i ∈ g.places c := by
  cases c with
  | sequence kind id =>
    rw [places_sequence] at place ⊢
    obtain ⟨m, bound, same⟩ := List.mem_map.1 place
    cases same
    rw [List.mem_range] at bound
    exact List.mem_map_of_mem (List.mem_range.2 (Nat.lt_trans lt bound))
  | map id =>
    rw [places_map] at place
    obtain ⟨key, -, same⟩ := List.mem_map.1 place
    cases same
  | _ => cases place

/-- An index of a collection is less than the number of its elements. -/
theorem lt_of_index_mem_places {n : Nat} (place : .index n ∈ g.places c) : n < (g.elements c).length := by
  have length : (g.places c).length = (g.elements c).length := List.length_map _
  obtain ⟨m, kind, id, same, rfl⟩ := (Access.cases_of_meantFor (meantFor_of_mem_places place)).resolve_right (by simp)
  cases same
  rw [places_sequence] at place length
  obtain ⟨m, bound, same⟩ := List.mem_map.1 place
  cases same
  rwa [← length, List.length_map, List.length_range, ← List.mem_range]

/-- Places of one collection are known from their labels. -/
theorem label_inj_of_mem_places (hs : s ∈ g.places c) (ht : t ∈ g.places c) (same : label s = label t) :
    s = t := by
  rcases Access.cases_of_meantFor (meantFor_of_mem_places hs) with
    ⟨n, kind, id, rfl, rfl⟩ | ⟨key, id, rfl, rfl⟩ <;>
    rcases Access.cases_of_meantFor (meantFor_of_mem_places ht) with
      ⟨_, _, _, rfl, kinds⟩ | ⟨_, _, rfl, kinds⟩ <;> cases kinds
  · exact congrArg Slot.index (Numeral.text_injective same)
  · exact congrArg Slot.key same

/-- The labels of a collection are those of its places. -/
theorem isSome_slot?_iff (meant : (Access.slot s).meantFor c = true) (text : String) :
    (g.slot? c text).isSome ↔ text ∈ (g.places c).map label := by
  rcases Access.cases_of_meantFor meant with ⟨n, kind, id, rfl, rfl⟩ | ⟨key, id, rfl, rfl⟩
  · rw [places_sequence, List.map_map]
    constructor
    · intro some
      obtain ⟨v, found⟩ := Option.isSome_iff_exists.1 some
      obtain ⟨n, rfl, item⟩ := exists_of_itemAt found
      rw [Nat.zero_add]
      exact List.mem_map_of_mem (List.mem_range.2 (List.getElem?_eq_some_iff.1 item).1)
    · intro place
      obtain ⟨n, bound, rfl⟩ := List.mem_map.1 place
      rw [Function.comp_apply, label, slot?_sequence_text, isSome_getElem?]
      exact List.mem_range.1 bound
  · rw [places_map, List.map_map, Entries.keys, List.map_map]
    constructor
    · intro some
      obtain ⟨v, found⟩ := Option.isSome_iff_exists.1 some
      exact List.mem_map.2 ⟨_, Entries.mem_of_get? found, rfl⟩
    · intro place
      obtain ⟨e, member, rfl⟩ := List.mem_map.1 place
      have found : (g.map id).entries.get? e.1 = some e.2 := Entries.get?_of_mem member
      exact Option.isSome_iff_exists.2 ⟨e.2, found⟩

/-- Two sequences, or two maps, with the same labels have the same places. -/
theorem places_eq (meant : (Access.slot s).meantFor c = true) (meant' : (Access.slot s).meantFor c' = true)
    (labels : ∀ text, (g.slot? c text).isSome ↔ (g'.slot? c' text).isSome) :
    g.places c = g'.places c' := by
  rcases Access.cases_of_meantFor meant with ⟨n, kind, id, rfl, rfl⟩ | ⟨key, id, rfl, rfl⟩
  · obtain ⟨_, kind', id', -, rfl⟩ := (Access.cases_of_meantFor meant').resolve_right (by simp)
    have bound : ∀ i, i < (g.sequence id).items.length ↔ i < (g'.sequence id').items.length := fun i => by
      have same := labels (Numeral.text i)
      rwa [slot?_sequence_text, slot?_sequence_text, isSome_getElem?, isSome_getElem?] at same
    have low := bound (g.sequence id).items.length
    have high := bound (g'.sequence id').items.length
    have length : (g.sequence id).items.length = (g'.sequence id').items.length := by omega
    rw [places_sequence, places_sequence, length]
  · obtain ⟨_, id', -, rfl⟩ := (Access.cases_of_meantFor meant').resolve_left (by simp)
    have irrefl : Std.Irrefl fun a b : String => a < b := ⟨String.lt_irrefl⟩
    have asymm : Std.Antisymm fun a b : String => a < b :=
      ⟨fun a b ab ba => absurd (String.lt_trans ab ba) (String.lt_irrefl a)⟩
    rw [places_map, places_map]
    refine congrArg (List.map Slot.key)
      ((Entries.keys_ascending _).eq_of_mem_iff (Entries.keys_ascending _) fun text => ?_)
    have same := labels text
    rw [isSome_slot?_iff meant, isSome_slot?_iff meant', places_map, places_map] at same
    simpa [label] using same

end Graph

end FieldBinding
