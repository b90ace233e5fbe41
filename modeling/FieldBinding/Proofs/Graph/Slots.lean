import FieldBinding.Navigation
import FieldBinding.Proofs.Graph.Planting

/-!
# Nodes as labelled slots

The writer changes nodes of three families, and most of what can be said about a change does not depend on the
family.  Here a node is its `Node.kind` and its labelled slots: an entry or a member has its key for a label, and
an element has the decimal text of its index.

`Graph.Rewrites` is a change in place: the node of one handle gets other values in some of its slots, and all
other nodes stay as they were.

Main results:

* `Graph.setEntry_rewrites`, `Graph.setMember_rewrites`, `Graph.setItem?_rewrites`, `Graph.setItems_padded_rewrites` —
  every change in place that the writer makes is of this form, unless it cuts off the elements of a list for which an
  index is too large (`Graph.HasRoom`).
-/

namespace FieldBinding

namespace Numeral

theorem text_injective {a b : Nat} (h : text a = text b) : a = b := by
  have digits_eq : Nat.toDigits 10 a = Nat.toDigits 10 b := String.ofList_injective h
  rw [← Nat.ofDigitChars_ten_toDigits (n := a), digits_eq, Nat.ofDigitChars_ten_toDigits]

@[simp]
theorem text_inj {a b : Nat} : text a = text b ↔ a = b :=
  ⟨text_injective, congrArg text⟩

end Numeral

/-! ## Addresses and nodes -/

/-- Where a node is stored. -/
inductive Address where
  | sequence (id : NodeId)
  | map (id : NodeId)
  | object (id : NodeId)
  deriving DecidableEq, Repr

/-- The address in a handle; null and scalars have none. -/
def Value.address? : Value → Option Address
  | null | scalar _ => none
  | sequence _ id => some (.sequence id)
  | map id => some (.map id)
  | object id => some (.object id)

/-- What a value stands for: a node, or nothing behind it. -/
inductive Node where
  | leaf
  | sequence (node : Sequence)
  | map (node : MapNode)
  | object (node : Object)

/-- What is known of a node apart from its slots. -/
inductive NodeKind where
  | leaf
  | sequence (element : TypeTag)
  | map (element : TypeTag)
  | object (typeName : String)
  deriving DecidableEq, Repr

/-- The element that has a label, where the labels count from a number. -/
def itemAt (start : Nat) : List Value → String → Option Value
  | [], _ => none
  | v :: rest, label => if label = Numeral.text start then some v else itemAt (start + 1) rest label

theorem itemAt_text (start : Nat) (items : List Value) (n : Nat) :
    itemAt start items (Numeral.text (start + n)) = items[n]? := by
  induction items generalizing start n with
  | nil => rfl
  | cons v rest ih =>
    rw [itemAt]
    cases n with
    | zero => simp
    | succ n =>
      have later : ¬Numeral.text (start + (n + 1)) = Numeral.text start := by
        rw [Numeral.text_inj]
        omega
      rw [if_neg later, List.getElem?_cons_succ, ← ih (start + 1) n, Nat.add_assoc, Nat.add_comm 1 n]

theorem exists_of_itemAt {start : Nat} {items : List Value} {label : String} {v : Value}
    (h : itemAt start items label = some v) : ∃ n, label = Numeral.text (start + n) ∧ items[n]? = some v := by
  induction items generalizing start with
  | nil => simp [itemAt] at h
  | cons w rest ih =>
    rw [itemAt] at h
    split at h
    · next here =>
      rw [Option.some.injEq] at h
      exact ⟨0, by simpa using here, by simpa using h⟩
    · obtain ⟨n, hlabel, hitem⟩ := ih h
      refine ⟨n + 1, ?_, by simpa using hitem⟩
      rw [hlabel]
      congr 1
      omega

theorem itemAt_append (start : Nat) (items others : List Value) (label : String) :
    itemAt start (items ++ others) label =
      (itemAt start items label).or (itemAt (start + items.length) others label) := by
  induction items generalizing start with
  | nil => simp [itemAt]
  | cons v rest ih =>
    rw [List.cons_append, itemAt, itemAt]
    split
    · rfl
    · rw [ih (start + 1), List.length_cons, Nat.add_assoc, Nat.add_comm 1]

theorem itemAt_set_of_ne (start : Nat) (items : List Value) (n : Nat) (v : Value) {label : String}
    (ne : label ≠ Numeral.text (start + n)) :
    itemAt start (items.set n v) label = itemAt start items label := by
  induction items generalizing start n with
  | nil => rfl
  | cons w rest ih =>
    cases n with
    | zero => rw [List.set_cons_zero, itemAt, itemAt, if_neg (by simpa using ne), if_neg (by simpa using ne)]
    | succ n =>
      rw [List.set_cons_succ, itemAt, itemAt, ih (start + 1) n]
      rwa [Nat.add_assoc, Nat.add_comm 1]

namespace Node

/-- What is known of the node apart from its slots. -/
def kind : Node → NodeKind
  | leaf => .leaf
  | sequence node => .sequence node.element
  | map node => .map node.element
  | object node => .object node.typeName

/-- The value in the slot with a label. -/
def slot? : Node → String → Option Value
  | leaf, _ => none
  | sequence node, label => itemAt 0 node.items label
  | map node, label => node.entries.get? label
  | object node, label => node.members.get? label

end Node

namespace Graph

/-- The node of a value. -/
def node (g : Graph) : Value → Node
  | .null | .scalar _ => .leaf
  | .sequence _ id => .sequence (g.sequence id)
  | .map id => .map (g.map id)
  | .object id => .object (g.object id)

/-- The value in the slot of a value with a label. -/
def slot? (g : Graph) (v : Value) (label : String) : Option Value :=
  (g.node v).slot? label

/-- Two handles with one address have one node. -/
theorem node_congr (g : Graph) {v w : Value} (h : v.address? = w.address?) : g.node v = g.node w := by
  cases v <;> cases w <;> simp_all [Value.address?, node]

theorem has_congr (g : Graph) {v w : Value} (h : v.address? = w.address?) : g.Has v ↔ g.Has w := by
  cases v <;> cases w <;> simp_all [Value.address?, Has]

theorem has_of_leaf {g : Graph} {v : Value} (leaf : v.address? = none) : g.Has v := by
  cases v <;> simp_all [Value.address?, Has]

theorem slot?_sequence_text (g : Graph) (kind : SequenceKind) (id : NodeId) (n : Nat) :
    g.slot? (.sequence kind id) (Numeral.text n) = (g.sequence id).items[n]? := by
  have h := itemAt_text 0 (g.sequence id).items n
  rwa [Nat.zero_add] at h

/-- The slots of a node hold its children. -/
theorem mem_children_iff (g : Graph) (v c : Value) : c ∈ g.children v ↔ ∃ label, g.slot? v label = some c := by
  have entries : ∀ m : Entries Value, c ∈ m.toList.map (·.2) ↔ ∃ label, m.get? label = some c := by
    intro m
    constructor
    · intro hc
      obtain ⟨⟨label, v⟩, he, rfl⟩ := List.mem_map.1 hc
      exact ⟨label, Entries.get?_of_mem he⟩
    · rintro ⟨label, h⟩
      exact List.mem_map_of_mem (f := (·.2)) (Entries.mem_of_get? h)
  cases v with
  | null => simp [children, slot?, node, Node.slot?]
  | scalar s => simp [children, slot?, node, Node.slot?]
  | sequence kind id =>
    rw [children, List.mem_iff_getElem?]
    constructor
    · rintro ⟨n, h⟩
      exact ⟨Numeral.text n, by rwa [slot?_sequence_text]⟩
    · rintro ⟨label, h⟩
      obtain ⟨n, -, h⟩ := exists_of_itemAt h
      exact ⟨n, h⟩
  | map id => exact entries _
  | object id => exact entries _

theorem Closed.has_of_slot? {g : Graph} (closed : g.Closed) {v c : Value} {label : String} (has : g.Has v)
    (h : g.slot? v label = some c) : g.Has c :=
  closed v c has ((g.mem_children_iff v c).2 ⟨label, h⟩)

theorem Extends.node_eq {g g' : Graph} (h : g.Extends g') {v : Value} (has : g.Has v) : g'.node v = g.node v := by
  cases v with
  | null => rfl
  | scalar s => rfl
  | sequence kind id => exact congrArg Node.sequence (h.sequences id has).2
  | map id => exact congrArg Node.map (h.maps id has).2
  | object id => exact congrArg Node.object (h.objects id has).2

/-! ## Elements -/

/-- Whether a place can be one of a collection: a key is no place of a sequence. -/
def fits : Value → Slot → Bool
  | .sequence _ _, .index _ | .map _, _ => true
  | _, _ => false

/-- The label of a place. -/
def label : Slot → String
  | .index n => Numeral.text n
  | .key key => key

/-- The element at a place is the value in its slot. -/
theorem elementAt_eq (g : Graph) (c : Value) (slot : Slot) :
    g.elementAt c slot = if fits c slot then (g.slot? c (label slot)).getD .null else .null := by
  cases c with
  | sequence kind id =>
    cases slot with
    | index n => rw [label, slot?_sequence_text]; rfl
    | key key => rfl
  | map id => cases slot <;> rfl
  | _ => cases slot <;> rfl

/-- A slot holds what is found in it and is not null. -/
theorem slot?_of_getD {g : Graph} {v : Value} {name : String} (value : (g.slot? v name).getD .null ≠ .null) :
    g.slot? v name = some ((g.slot? v name).getD .null) := by
  cases found : g.slot? v name with
  | none => simp [found] at value
  | some c => rfl

theorem slot?_of_elementAt {g : Graph} {c : Value} {slot : Slot} (value : g.elementAt c slot ≠ .null) :
    g.slot? c (label slot) = some (g.elementAt c slot) := by
  rw [elementAt_eq] at value ⊢
  split at value
  · next fit =>
    rw [if_pos fit]
    exact slot?_of_getD value
  · exact absurd rfl value

theorem elementAt_congr {g g' : Graph} {c : Value} (h : g'.node c = g.node c) (slot : Slot) :
    g'.elementAt c slot = g.elementAt c slot := by
  simp only [elementAt_eq, slot?, h]

theorem elements_congr {g g' : Graph} {c : Value} (h : g'.node c = g.node c) :
    g'.elements c = g.elements c := by
  cases c with
  | sequence kind id =>
    have same : g'.sequence id = g.sequence id := Node.sequence.inj h
    simp only [elements, same]
  | map id =>
    have same : g'.map id = g.map id := Node.map.inj h
    simp only [elements, same]
  | _ => rfl

theorem mem_children_of_elementAt {g : Graph} {c w : Value} {slot : Slot}
    (h : g.elementAt c slot = w) (value : w ≠ .null) : w ∈ g.children c := by
  rw [elementAt_eq] at h
  split at h
  case isFalse => exact absurd h.symm value
  cases found : g.slot? c (label slot) with
  | none => exact absurd (by simpa [found] using h.symm) value
  | some u =>
    rw [found, Option.getD_some] at h
    exact (g.mem_children_iff c w).2 ⟨_, h ▸ found⟩

/-! ## Changes in place -/

/-- One slot gets a value. -/
def onlyAt (label : String) (v : Value) : String → Option Value :=
  fun other => if other = label then some v else none

/-- The slots that are added when elements are filled up with nulls. -/
def paddedAt (length index : Nat) : String → Option Value :=
  itemAt length (List.replicate (index + 1 - length) .null)

/-- Only null is filled up with. -/
theorem eq_null_of_paddedAt {length index : Nat} {label : String} {v : Value}
    (h : paddedAt length index label = some v) : v = .null := by
  obtain ⟨n, -, hitem⟩ := exists_of_itemAt h
  exact List.eq_of_mem_replicate (List.mem_of_getElem? hitem)

/-- No slot is filled up that was there. -/
theorem itemAt_eq_none_of_paddedAt {items : List Value} {index : Nat} {label : String} {v : Value}
    (h : paddedAt items.length index label = some v) : itemAt 0 items label = none := by
  obtain ⟨n, rfl, -⟩ := exists_of_itemAt h
  have behind := itemAt_text 0 items (items.length + n)
  rw [Nat.zero_add] at behind
  rw [behind, List.getElem?_eq_none (Nat.le_add_right _ _)]

theorem itemAt_padded {items : List Value} {index : Nat} (room : HasRoom items index) (label : String) :
    itemAt 0 (padded items index) label =
      (paddedAt items.length index label).or (itemAt 0 items label) := by
  rw [padded_of_hasRoom room, itemAt_append, Nat.zero_add]
  cases h : paddedAt items.length index label with
  | none =>
    rw [paddedAt] at h
    rw [h, Option.or_none, Option.none_or]
  | some v =>
    rw [itemAt_eq_none_of_paddedAt h, Option.none_or, Option.or_none, ← h, paddedAt]

/-- Whether there is room for the index or not, padding brings in nothing but nulls. -/
theorem itemAt_of_padded {items : List Value} {index : Nat} {label : String} {v : Value}
    (h : itemAt 0 (padded items index) label = some v) : v = .null ∨ itemAt 0 items label = some v := by
  obtain ⟨n, rfl, hitem⟩ := exists_of_itemAt h
  rw [itemAt_text]
  unfold padded at hitem
  split at hitem
  case isFalse => exact .inr hitem
  rw [resized, List.getElem?_append] at hitem
  split at hitem
  · next bound =>
    rw [List.length_take] at bound
    rw [List.getElem?_take_of_lt (by omega)] at hitem
    exact .inr hitem
  · exact .inl (List.eq_of_mem_replicate (List.mem_of_getElem? hitem))

/-- A change in place: some slots of one node get other values. -/
structure Rewrites (g g' : Graph) (x : Value) (values : String → Option Value) : Prop where
  has : ∀ v, g'.Has v ↔ g.Has v
  kept : ∀ v, v.address? ≠ x.address? → g'.node v = g.node v
  kind : (g'.node x).kind = (g.node x).kind
  slot : ∀ label, g'.slot? x label = (values label).or (g.slot? x label)

theorem setEntry_rewrites {g : Graph} {id : NodeId} (has : g.Has (.map id)) (key : String) (v : Value) :
    g.Rewrites (g.setEntry id key v) (.map id) (onlyAt key v) where
  has w := by cases w <;> simp [Has, setEntry, Store.size_set]
  kept w hw := by
    cases w with
    | map other =>
      have ne : id ≠ other := by
        rintro rfl
        exact hw rfl
      exact congrArg Node.map (Store.get_set_ne _ ne _)
    | _ => rfl
  kind := by simp [node, Node.kind, setEntry, map, Store.get_set_self has]
  slot label := by
    simp only [slot?, node, Node.slot?, setEntry, map, Store.get_set_self has, Entries.get?_insert, onlyAt]
    split <;> rfl

theorem setMember_rewrites {g : Graph} {id : NodeId} (has : g.Has (.object id)) (name : String) (v : Value) :
    g.Rewrites (g.setObject id { g.object id with members := (g.object id).members.insert name v })
      (.object id) (onlyAt name v) where
  has w := by cases w <;> simp [Has, setObject, Store.size_set]
  kept w hw := by
    cases w with
    | object other =>
      have ne : id ≠ other := by
        rintro rfl
        exact hw rfl
      exact congrArg Node.object (Store.get_set_ne _ ne _)
    | _ => rfl
  kind := by simp [node, Node.kind, setObject, object, Store.get_set_self has]
  slot label := by
    simp only [slot?, node, Node.slot?, setObject, object, Store.get_set_self has, Entries.get?_insert, onlyAt]
    split <;> rfl

theorem setItems_has (g : Graph) (id : NodeId) (items : List Value) (v : Value) :
    (g.setItems id items).Has v ↔ g.Has v := by
  cases v <;> simp [Has, setItems, Store.size_set]

theorem setItems_kept (g : Graph) {id : NodeId} (items : List Value) {v : Value}
    (ne : v.address? ≠ some (.sequence id)) : (g.setItems id items).node v = g.node v := by
  cases v with
  | sequence kind other =>
    have ne : id ≠ other := by
      rintro rfl
      exact ne rfl
    exact congrArg Node.sequence (Store.get_set_ne _ ne _)
  | _ => rfl

theorem sequence_setItems {g : Graph} {id : NodeId} (has : id < g.sequences.size)
    (items : List Value) : (g.setItems id items).sequence id = { g.sequence id with items } := by
  simp only [setItems, sequence, Store.get_set_self has]

theorem setItem?_rewrites {g g' : Graph} {kind : SequenceKind} {id : NodeId} {n : Nat} {v : Value}
    (has : g.Has (.sequence kind id)) (set : g.setItem? id n v = some g') :
    g.Rewrites g' (.sequence kind id) (onlyAt (Numeral.text n) v) := by
  simp only [setItem?] at set
  split at set
  case isFalse => cases set
  next bound =>
  rw [Option.some.injEq] at set
  subst set
  refine ⟨g.setItems_has id _, fun w hw => g.setItems_kept _ hw, ?_, fun label => ?_⟩
  · simp only [node, Node.kind, sequence_setItems has]
  · simp only [slot?, node, Node.slot?, sequence_setItems has]
    by_cases same : label = Numeral.text n
    · subst same
      have set_item := itemAt_text 0 ((g.sequence id).items.set n v) n
      rw [Nat.zero_add] at set_item
      rw [set_item, List.getElem?_set_self bound, onlyAt, if_pos rfl, Option.some_or]
    · rw [onlyAt, if_neg same, Option.none_or]
      exact itemAt_set_of_ne _ _ _ _ (by simpa using same)

theorem setItems_padded_rewrites {g : Graph} {kind : SequenceKind} {id : NodeId} {index : Nat}
    (has : g.Has (.sequence kind id)) (room : HasRoom (g.sequence id).items index) :
    g.Rewrites (g.setItems id (padded (g.sequence id).items index)) (.sequence kind id)
      (paddedAt (g.sequence id).items.length index) := by
  refine ⟨g.setItems_has id _, fun w hw => g.setItems_kept _ hw, ?_, fun label => ?_⟩
  · simp only [node, Node.kind, sequence_setItems has]
  · simp only [slot?, node, Node.slot?, sequence_setItems has]
    exact itemAt_padded room _

/-- A change in place that brings in nothing but nulls: the slots of one node hold what they held, or null, or are
gone. -/
structure Resizes (g g' : Graph) (x : Value) : Prop where
  has : ∀ v, g'.Has v ↔ g.Has v
  kept : ∀ v, v.address? ≠ x.address? → g'.node v = g.node v
  kind : (g'.node x).kind = (g.node x).kind
  slot : ∀ label v, g'.slot? x label = some v → v = .null ∨ g.slot? x label = some v

theorem setItems_padded_resizes {g : Graph} {kind : SequenceKind} {id : NodeId} (has : g.Has (.sequence kind id))
    (index : Nat) : g.Resizes (g.setItems id (padded (g.sequence id).items index)) (.sequence kind id) := by
  refine ⟨g.setItems_has id _, fun w hw => g.setItems_kept _ hw, ?_, fun label v held => ?_⟩
  · simp only [node, Node.kind, sequence_setItems has]
  · rw [slot?, node, Node.slot?, sequence_setItems has] at held
    exact itemAt_of_padded held

theorem Resizes.kind_eq {g g' : Graph} {x : Value} (change : g.Resizes g' x) (v : Value) :
    (g'.node v).kind = (g.node v).kind := by
  by_cases here : v.address? = x.address?
  · rw [g'.node_congr here, g.node_congr here, change.kind]
  · rw [change.kept v here]

theorem Resizes.slot_eq {g g' : Graph} {x v w : Value} {label : String} (change : g.Resizes g' x)
    (held : g'.slot? v label = some w) : w = .null ∨ g.slot? v label = some w := by
  by_cases here : v.address? = x.address?
  · rw [slot?, g'.node_congr here] at held
    rw [slot?, g.node_congr here]
    exact change.slot label w held
  · rw [slot?, change.kept v here] at held
    exact .inr held

end Graph

end FieldBinding
