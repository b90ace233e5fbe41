import FieldBinding.Graph.Equality
import FieldBinding.Graph.Tree
import FieldBinding.Proofs.Conversion.Loss
import FieldBinding.Proofs.Graph.Acyclic
import Mathlib.Data.List.Forall2

/-!
# Equality of shared values

Two nodes are equal if they are one, and else if they say the same apart from their values, and their values are equal
in order.  The comparison goes down on both sides at once, and a way down from an acyclic value meets each node only
once, so that the number of nodes is depth enough.

Equality is symmetric and transitive, because at each level the two ways of being equal go together: a node that is
the very same as another can stand for it in any comparison.  It is reflexive wherever there is a node, whatever the
node holds, because nodes are not looked into when they are the same.  So a value that is not a number goes unnoticed
below a node that is compared with itself, and comes to light in a copy of the node.

Main results:

* `Graph.equalWithin_node` — when two nodes are equal, one level down.
* `Graph.equal_iff` — the number of nodes is depth enough for acyclic values.
* `Graph.equal_of_unshared`, `Graph.equal_of_content` — values that share no node are equal only if they hold numbers,
  and then if they have the same content.
* `Graph.equal_laws` — equality of values over acyclic graphs.
-/

namespace FieldBinding

/-! ## Lists that agree -/

section Lists

variable {α β γ : Type}

theorem agreeAll_iff {agree : α → β → Bool} {as : List α} {bs : List β} :
    agreeAll agree as bs = true ↔ List.Forall₂ (fun a b => agree a b = true) as bs := by
  induction as generalizing bs with
  | nil => cases bs <;> simp [agreeAll]
  | cons a as ih => cases bs <;> simp [agreeAll, ih]

/-- Entries agree if their keys do and their values do. -/
theorem agreeEntries_iff {agree : α → β → Bool} {as : List (String × α)} {bs : List (String × β)} :
    agreeEntries agree as bs = true ↔ as.map (·.1) = bs.map (·.1) ∧
      List.Forall₂ (fun a b => agree a b = true) (as.map (·.2)) (bs.map (·.2)) := by
  rw [agreeEntries, agreeAll_iff]
  induction as generalizing bs with
  | nil => cases bs <;> simp
  | cons a as ih =>
    cases bs with
    | nil => simp
    | cons b bs =>
      rw [List.forall₂_cons, ih]
      simp only [List.map_cons, List.cons.injEq, List.forall₂_cons, Bool.and_eq_true, beq_iff_eq]
      tauto

theorem forall₂_trans {R : α → β → Prop} {S : β → γ → Prop} {T : α → γ → Prop}
    (trans : ∀ a b c, R a b → S b c → T a c) {as : List α} {bs : List β} {cs : List γ}
    (h : List.Forall₂ R as bs) (h' : List.Forall₂ S bs cs) : List.Forall₂ T as cs := by
  induction h generalizing cs with
  | nil => cases h' with
    | nil => exact .nil
  | cons head _ ih => cases h' with
    | cons head' tail' => exact .cons (trans _ _ _ head head') (ih tail')

theorem forall₂_imp_mem {R S : α → β → Prop} {as : List α} {bs : List β} (h : List.Forall₂ R as bs)
    (imp : ∀ a ∈ as, ∀ b ∈ bs, R a b → S a b) : List.Forall₂ S as bs := by
  induction h with
  | nil => exact .nil
  | cons head _ ih =>
    refine .cons (imp _ List.mem_cons_self _ List.mem_cons_self head) (ih fun a ha b hb => ?_)
    exact imp a (List.mem_cons_of_mem _ ha) b (List.mem_cons_of_mem _ hb)

theorem forall₂_of_map_eq {f : α → γ} {f' : β → γ} {as : List α} {bs : List β} (h : as.map f = bs.map f') :
    List.Forall₂ (fun a b => f a = f' b) as bs := by
  rwa [← List.forall₂_eq_eq_eq, List.forall₂_map_left_iff, List.forall₂_map_right_iff] at h

theorem exists_of_forall₂ {R : α → β → Prop} {as : List α} {bs : List β} (h : List.Forall₂ R as bs) {a : α}
    (mem : a ∈ as) : ∃ b ∈ bs, R a b := by
  induction h with
  | nil => cases mem
  | cons head _ ih =>
    rcases List.mem_cons.1 mem with rfl | mem
    · exact ⟨_, List.mem_cons_self, head⟩
    · obtain ⟨b, hb, related⟩ := ih mem
      exact ⟨b, List.mem_cons_of_mem _ hb, related⟩

end Lists

/-! ## Scalars -/

namespace Numeral.Binary

theorem equal_trans {f : Format} {x y z : Binary f} (h : x.equal y = true) (h' : y.equal z = true) :
    x.equal z = true := by
  obtain ⟨number, -, same⟩ := equal_iff.1 h
  obtain ⟨-, number', same'⟩ := equal_iff.1 h'
  refine equal_iff.2 ⟨number, number', ?_⟩
  rcases same with ⟨zero, zero'⟩ | rfl
  · rcases same' with ⟨-, zero''⟩ | rfl
    · exact .inl ⟨zero, zero''⟩
    · exact .inl ⟨zero, zero'⟩
  · exact same'

end Numeral.Binary

namespace Scalar

variable {a b c : Scalar}

theorem kind_eq_of_equal (h : a.equal b = true) : a.kind = b.kind := by
  cases a <;> cases b <;> simp_all [equal, kind]

/-- Scalars of one kind are compared all in the same way. -/
theorem equal_trans (h : a.equal b = true) (h' : b.equal c = true) : a.equal c = true := by
  cases alike_of_kind (kind_eq_of_equal h) with
  | float x y => cases alike_of_kind (kind_eq_of_equal h') with
    | float _ z => exact Numeral.Binary.equal_trans h h'
  | double x y => cases alike_of_kind (kind_eq_of_equal h') with
    | double _ z => exact Numeral.Binary.equal_trans h h'
  | dateTime i j => cases alike_of_kind (kind_eq_of_equal h') with
    | dateTime _ k => exact decide_eq_true ((of_decide_eq_true h).trans (of_decide_eq_true h'))
  | _ => exact (eq_of_equal h nofun nofun nofun).symm ▸ h'

/-- Only what is not a number differs from itself. -/
theorem equal_self_iff {s : Scalar} : s.equal s = true ↔ s.isNaN = false := by
  refine ⟨fun h => ?_, equal_self⟩
  cases s with
  | float x => exact (Numeral.Binary.equal_iff.1 h).1
  | double x => exact (Numeral.Binary.equal_iff.1 h).1
  | _ => rfl

theorem isNaN_of_equal (h : a.equal b = true) : a.isNaN = false :=
  equal_self_iff.1 (equal_trans h (equal_symm b a ▸ h))

end Scalar

namespace Graph

variable {g : Graph} {v w u : Value} {depth : Nat}

/-! ## One level -/

/-- What a value says apart from the values that it holds. -/
inductive Outline where
  | leaf
  | sequence (kind : SequenceKind) (element : TypeTag)
  | map (element : TypeTag) (keys : List String)
  | object (typeName : String) (keys : List String)

/-- The outline of a value. -/
def outline (g : Graph) : Value → Outline
  | .null | .scalar _ => .leaf
  | .sequence kind id => .sequence kind (g.sequence id).element
  | .map id => .map (g.map id).element (g.map id).entries.keys
  | .object id => .object (g.object id).typeName (g.object id).members.keys

/-- Nodes are equal if they are one, or have the same outline and equal values in order. -/
theorem equalWithin_node (node : v.address? ≠ none) :
    g.equalWithin (depth + 1) v w = true ↔ v = w ∨ g.outline v = g.outline w ∧
      List.Forall₂ (fun c d => g.equalWithin depth c d = true) (g.children v) (g.children w) := by
  cases v with
  | null => exact absurd rfl node
  | scalar s => exact absurd rfl node
  | sequence kind id =>
    cases w <;> simp only [equalWithin, outline, children, agreeAll_iff, Bool.and_eq_true, Bool.or_eq_true, beq_iff_eq,
      Value.sequence.injEq, Outline.sequence.injEq, reduceCtorEq, Bool.false_eq_true, false_and, or_self]
    tauto
  | map id =>
    cases w <;> simp only [equalWithin, outline, children, Entries.keys, agreeEntries_iff, Bool.and_eq_true,
      Bool.or_eq_true, beq_iff_eq, Value.map.injEq, Outline.map.injEq, reduceCtorEq, Bool.false_eq_true, false_and,
      or_self, and_assoc]
  | object id =>
    cases w <;> simp only [equalWithin, outline, children, Entries.keys, agreeEntries_iff, Bool.and_eq_true,
      Bool.or_eq_true, beq_iff_eq, Value.object.injEq, Outline.object.injEq, reduceCtorEq, Bool.false_eq_true,
      false_and, or_self, and_assoc]

theorem address?_iff_of_outline (h : g.outline v = g.outline w) : v.address? = none ↔ w.address? = none := by
  cases v <;> cases w <;> simp_all [Value.address?, outline]

/-! ## Equality without a bound -/

/-- When two values are equal, however far down it takes to see it. -/
inductive Equal (g : Graph) : Value → Value → Prop where
  | null : g.Equal .null .null
  | scalar {s t : Scalar} (equal : s.equal t = true) : g.Equal (.scalar s) (.scalar t)
  /-- Handles to the very same node. -/
  | same {v : Value} (node : v.address? ≠ none) : g.Equal v v
  | content {v w : Value} (node : v.address? ≠ none) (outline : g.outline v = g.outline w)
      (children : List.Forall₂ g.Equal (g.children v) (g.children w)) : g.Equal v w

theorem equalWithin_leaf_iff (leaf : v.address? = none) : g.equalWithin depth v w = true ↔ g.Equal v w := by
  constructor
  · intro h
    cases v <;> cases w <;> simp_all [equalWithin, Value.address?]
    · exact .null
    · exact .scalar h
  · intro h
    cases h with
    | null => simp [equalWithin]
    | scalar equal => simpa [equalWithin] using equal
    | same node => exact absurd leaf node
    | content node => exact absurd leaf node

theorem equal_of_equalWithin (h : g.equalWithin depth v w = true) : g.Equal v w := by
  induction depth generalizing v w with
  | zero =>
    by_cases leaf : v.address? = none
    · exact (equalWithin_leaf_iff leaf).1 h
    · cases v <;> cases w <;> simp_all [equalWithin, Value.address?]
  | succ depth ih =>
    by_cases leaf : v.address? = none
    · exact (equalWithin_leaf_iff leaf).1 h
    · rcases (equalWithin_node leaf).1 h with rfl | ⟨outline, children⟩
      · exact .same leaf
      · exact .content leaf outline (children.imp fun c d => ih)

/-! ## Depth -/

/-- Whether every way down from a value meets at most a number of nodes. -/
def Shallow (g : Graph) : Nat → Value → Prop
  | 0, v => v.address? = none
  | depth + 1, v => ∀ c ∈ g.children v, g.Shallow depth c

theorem shallow_leaf (leaf : v.address? = none) (depth : Nat) : g.Shallow depth v := by
  cases depth with
  | zero => exact leaf
  | succ depth => cases v <;> simp_all [Value.address?, Shallow, children]

theorem Shallow.mono {more : Nat} (shallow : g.Shallow depth v) (le : depth ≤ more) : g.Shallow more v := by
  induction depth generalizing v more with
  | zero => exact shallow_leaf shallow more
  | succ depth ih =>
    obtain ⟨more, rfl⟩ := Nat.exists_eq_add_of_lt le
    exact fun c hc => ih (shallow c hc) (Nat.le_add_right _ _)

instance decidableShallow (g : Graph) : (depth : Nat) → (v : Value) → Decidable (g.Shallow depth v)
  | 0, v => inferInstanceAs (Decidable (v.address? = none))
  | depth + 1, v =>
    have := g.decidableShallow depth
    inferInstanceAs (Decidable (∀ c ∈ g.children v, g.Shallow depth c))

theorem Shallow.acyclic (shallow : g.Shallow depth v) : g.Acyclic v := by
  induction depth generalizing v with
  | zero => exact .of_children fun c child => by cases v <;> simp_all [Shallow, Value.address?, children]
  | succ depth ih => exact .of_children fun c child => ih (shallow c child)

/-- A way down from an acyclic value leaves the address of a node behind for good. -/
theorem Acyclic.shallow (acyclic : g.Acyclic v) {left : Finset Address}
    (inside : ∀ w a, g.Reaches v w → w.address? = some a → a ∈ left) : g.Shallow left.card v := by
  induction acyclic generalizing left with
  | intro v below ih =>
    have acyclic : g.Acyclic v := .intro v below
    cases address : v.address? with
    | none => exact shallow_leaf address _
    | some a =>
      rw [← Finset.card_erase_add_one (inside v a .refl address)]
      refine fun c child => ih c child fun w b reaches there => Finset.mem_erase.2 ⟨?_, ?_⟩
      · rintro rfl
        exact acyclic.address_ne (.head' child reaches) (there.trans address.symm)
      · exact inside w b (.head child reaches) there

/-- The addresses of all nodes. -/
def addresses (g : Graph) : Finset Address :=
  (Finset.range g.sequences.size).image .sequence ∪ (Finset.range g.maps.size).image .map ∪
    (Finset.range g.objects.size).image .object

theorem card_addresses_le (g : Graph) : g.addresses.card ≤ g.size := by
  have sequences := Finset.card_image_le (s := Finset.range g.sequences.size) (f := Address.sequence)
  have maps := Finset.card_image_le (s := Finset.range g.maps.size) (f := Address.map)
  have objects := Finset.card_image_le (s := Finset.range g.objects.size) (f := Address.object)
  have both := Finset.card_union_le ((Finset.range g.sequences.size).image Address.sequence)
    ((Finset.range g.maps.size).image Address.map)
  have all := Finset.card_union_le ((Finset.range g.sequences.size).image Address.sequence ∪
    (Finset.range g.maps.size).image Address.map) ((Finset.range g.objects.size).image Address.object)
  simp only [Finset.card_range] at sequences maps objects
  unfold addresses size
  omega

theorem mem_addresses {a : Address} (has : g.Has v) (address : v.address? = some a) : a ∈ g.addresses := by
  cases v with
  | null => cases address
  | scalar s => cases address
  | _ =>
    cases address
    simpa [addresses, Has] using has

/-- The number of nodes bounds every way down from an acyclic value. -/
theorem Acyclic.shallow_size (closed : g.Closed) (has : g.Has v) (acyclic : g.Acyclic v) : g.Shallow g.size v :=
  (acyclic.shallow fun _ _ reaches => mem_addresses (reaches.has closed has)).mono g.card_addresses_le

theorem equalWithin_of_equal (shallow : g.Shallow depth v) (h : g.Equal v w) : g.equalWithin depth v w = true := by
  induction depth generalizing v w with
  | zero => exact (equalWithin_leaf_iff shallow).2 h
  | succ depth ih =>
    by_cases leaf : v.address? = none
    · exact (equalWithin_leaf_iff leaf).2 h
    · refine (equalWithin_node leaf).2 ?_
      cases h with
      | null => exact absurd rfl leaf
      | scalar => exact absurd rfl leaf
      | same => exact .inl rfl
      | content _ outline children =>
        exact .inr ⟨outline, forall₂_imp_mem children fun c hc d _ below => ih (shallow c hc) below⟩

/-- Acyclic values are equal as far as it takes no more handles than there are nodes, exactly if they are equal. -/
theorem equal_iff (closed : g.Closed) (has : g.Has v) (acyclic : g.Acyclic v) :
    g.equal v w = true ↔ g.Equal v w :=
  ⟨equal_of_equalWithin, equalWithin_of_equal (acyclic.shallow_size closed has)⟩

/-! ## The laws of an equivalence -/

namespace Equal

theorem symm (acyclic : g.Acyclic v) (h : g.Equal v w) : g.Equal w v := by
  induction acyclic generalizing w with
  | intro v _ ih =>
    cases h with
    | null => exact .null
    | scalar equal => exact .scalar (Scalar.equal_symm .. ▸ equal)
    | same node => exact .same node
    | content node outline children =>
      refine .content (mt (address?_iff_of_outline outline).2 node) outline.symm (.flip ?_)
      exact forall₂_imp_mem children fun c hc d _ below => ih c hc below

/-- Where one of two comparisons has found a single node, the other one decides. -/
theorem trans (acyclic : g.Acyclic v) (h : g.Equal v w) (h' : g.Equal w u) : g.Equal v u := by
  induction acyclic generalizing w u with
  | intro v _ ih =>
    cases h with
    | null => exact h'
    | same => exact h'
    | scalar equal =>
      cases h' with
      | scalar equal' => exact .scalar (Scalar.equal_trans equal equal')
      | same node => exact absurd rfl node
      | content node => exact absurd rfl node
    | content node outline children =>
      have node' := mt (address?_iff_of_outline outline).2 node
      cases h' with
      | null => exact absurd rfl node'
      | scalar => exact absurd rfl node'
      | same => exact .content node outline children
      | content _ outline' children' =>
        have below := forall₂_imp_mem children fun c hc d _ below e (below' : g.Equal d e) => ih c hc below below'
        exact .content node (outline.trans outline') (forall₂_trans (fun c d e below => below e) below children')

end Equal

/-- Everything equals itself but a number that is none. -/
theorem equal_self_iff : g.Equal v v ↔ ¬∃ s : Scalar, v = .scalar s ∧ s.isNaN = true := by
  constructor
  · rintro h ⟨s, rfl, notNumber⟩
    cases h with
    | scalar equal => rw [Scalar.isNaN_of_equal equal] at notNumber; cases notNumber
    | same node => exact node rfl
    | content node => exact node rfl
  · intro numbers
    cases v with
    | null => exact .null
    | scalar s => exact .scalar (Scalar.equal_self (Bool.eq_false_iff.2 fun notNumber => numbers ⟨s, rfl, notNumber⟩))
    | sequence kind id => exact .same nofun
    | map id => exact .same nofun
    | object id => exact .same nofun

/-! ## What is not a number -/

/-- Whether a floating-point value that is not a number is found from a value on the way down. -/
def HoldsNaN (g : Graph) (v : Value) : Prop :=
  ∃ s : Scalar, g.Reaches v (.scalar s) ∧ s.isNaN = true

theorem equal_self (numbers : ¬g.HoldsNaN v) : g.Equal v v := by
  refine equal_self_iff.2 ?_
  rintro ⟨s, rfl, notNumber⟩
  exact numbers ⟨s, .refl, notNumber⟩

/-- A list of values that holds the children of all its members holds everything that is found from them. -/
theorem Reaches.mem {l : List Value} (h : g.Reaches v w) (mem : v ∈ l)
    (kept : ∀ x ∈ l, ∀ c ∈ g.children x, c ∈ l) : w ∈ l := by
  induction h with
  | refl => exact mem
  | tail _ child ih => exact kept _ ih _ child

/-- Whether no node is found from both of two values. -/
def Unshared (g : Graph) (v w : Value) : Prop :=
  ∀ x y, g.Reaches v x → g.Reaches w y → x.address? = y.address? → x.address? = none

/-- Without a common node every value is looked at, and one that is not a number is not equal to any other. -/
theorem equal_of_unshared (h : g.Equal v w) (unshared : g.Unshared v w) : ¬g.HoldsNaN v := by
  rintro ⟨s, reaches, notNumber⟩
  induction reaches using Relation.ReflTransGen.head_induction_on generalizing w with
  | refl =>
    cases h with
    | scalar equal => rw [Scalar.isNaN_of_equal equal] at notNumber; cases notNumber
    | same node => exact node rfl
    | content node => exact node rfl
  | head child _ ih =>
    cases h with
    | null => cases child
    | scalar => cases child
    | same node => exact node (unshared _ _ .refl .refl rfl)
    | content _ _ children =>
      obtain ⟨d, child', below⟩ := exists_of_forall₂ children child
      exact ih below fun x y hx hy => unshared x y (.head child hx) (.head child' hy)

/-- Nodes of the same content have the same outline, and children of the same content in order. -/
theorem children_of_content (node : v.address? ≠ none)
    (content : g.contentWithin (depth + 1) v = g.contentWithin (depth + 1) w) :
    g.outline v = g.outline w ∧
      List.Forall₂ (fun c d => g.contentWithin depth c = g.contentWithin depth d) (g.children v) (g.children w) := by
  -- what is said of entries holds of maps and of objects
  have entries : ∀ {m m' : Entries Value},
      m.toList.map (fun e => (e.1, g.contentWithin depth e.2)) =
        m'.toList.map (fun e => (e.1, g.contentWithin depth e.2)) →
      m.keys = m'.keys ∧ List.Forall₂ (fun c d => g.contentWithin depth c = g.contentWithin depth d)
        (m.toList.map (·.2)) (m'.toList.map (·.2)) := by
    intro m m' same
    have keys := congrArg (List.map Prod.fst) same
    have values := congrArg (List.map Prod.snd) same
    simp only [List.map_map, Function.comp_def] at keys values
    refine ⟨keys, forall₂_of_map_eq ?_⟩
    rwa [List.map_map, List.map_map]
  cases v with
  | null => exact absurd rfl node
  | scalar s => exact absurd rfl node
  | sequence kind id =>
    cases w <;> simp only [contentWithin, Tree.sequence.injEq, reduceCtorEq] at content
    obtain ⟨rfl, element, items⟩ := content
    exact ⟨congrArg (Outline.sequence kind) element, forall₂_of_map_eq items⟩
  | map id =>
    cases w <;> simp only [contentWithin, Tree.map.injEq, reduceCtorEq] at content
    obtain ⟨keys, values⟩ := entries content.2
    exact ⟨congrArg₂ Outline.map content.1 keys, values⟩
  | object id =>
    cases w <;> simp only [contentWithin, Tree.object.injEq, reduceCtorEq] at content
    obtain ⟨keys, values⟩ := entries content.2
    exact ⟨congrArg₂ Outline.object content.1 keys, values⟩

/-- A value without parts is known from its content. -/
theorem eq_of_content (leaf : v.address? = none) (shallow : g.Shallow depth w)
    (content : g.contentWithin depth v = g.contentWithin depth w) : v = w := by
  cases depth <;> cases v <;> cases w <;> simp_all [contentWithin, Shallow, Value.address?]

/-- Values of the same content are equal if all numbers in them are such. -/
theorem equal_of_content (shallow : g.Shallow depth v) (shallow' : g.Shallow depth w)
    (content : g.contentWithin depth v = g.contentWithin depth w) (numbers : ¬g.HoldsNaN v) : g.Equal v w := by
  induction depth generalizing v w with
  | zero => exact eq_of_content shallow shallow' content ▸ equal_self numbers
  | succ depth ih =>
    by_cases leaf : v.address? = none
    · exact eq_of_content leaf shallow' content ▸ equal_self numbers
    · obtain ⟨outline, children⟩ := children_of_content leaf content
      refine .content leaf outline (forall₂_imp_mem children fun c hc d hd below => ?_)
      refine ih (shallow c hc) (shallow' d hd) below ?_
      rintro ⟨s, reaches, notNumber⟩
      exact numbers ⟨s, .head hc reaches, notNumber⟩

/-! ## All of it -/

/-- A value whose nodes are there and from which every way down ends. -/
structure Grounded (g : Graph) (v : Value) : Prop where
  has : g.Has v
  acyclic : g.Acyclic v

/-- Equality of values over acyclic graphs, whatever nodes they share.

Equality is symmetric and transitive.  A value differs from itself only if it is a floating-point scalar that is not a
number; the clone of a handle is the handle, so every node equals its clones, whatever it holds.  A value and another of
the same content that shares no node with it differ exactly if a floating-point scalar that is not a number is found
anywhere in them. -/
theorem equal_laws (closed : g.Closed) :
    (∀ v w, g.Grounded v → g.Grounded w → g.equal v w = g.equal w v) ∧
      (∀ v w u, g.Grounded v → g.Grounded w → g.Grounded u → g.equal v w = true → g.equal w u = true →
        g.equal v u = true) ∧
      (∀ v, g.Grounded v → (g.equal v v = false ↔ ∃ s : Scalar, v = .scalar s ∧ s.isNaN = true)) ∧
      (∀ v, g.Grounded v → v.address? ≠ none → g.equal v v = true) ∧
      ∀ v w, g.Grounded v → g.Grounded w → g.content v = g.content w → g.Unshared v w →
        (g.equal v w = false ↔ g.HoldsNaN v) := by
  have equal_iff : ∀ {v w}, g.Grounded v → (g.equal v w = true ↔ g.Equal v w) :=
    fun grounded => equal_iff closed grounded.has grounded.acyclic
  refine ⟨fun v w grounded grounded' => ?_, fun v w u grounded grounded' _ h h' => ?_, fun v grounded => ?_,
    fun v grounded node => (equal_iff grounded).2 (.same node), fun v w grounded grounded' content unshared => ?_⟩
  · rw [Bool.eq_iff_iff, equal_iff grounded, equal_iff grounded']
    exact ⟨.symm grounded.acyclic, .symm grounded'.acyclic⟩
  · rw [equal_iff grounded] at h ⊢
    rw [equal_iff grounded'] at h'
    exact h.trans grounded.acyclic h'
  · rw [← Bool.not_eq_true, equal_iff grounded, equal_self_iff, not_not]
  · rw [← Bool.not_eq_true, equal_iff grounded]
    have shallow := grounded.acyclic.shallow_size closed grounded.has
    have shallow' := grounded'.acyclic.shallow_size closed grounded'.has
    exact ⟨not_imp_comm.1 (equal_of_content shallow shallow' content),
      fun holds h => equal_of_unshared h unshared holds⟩

/-- Two maps that each hold a list twice, and the lists hold the same value that is not a number; and three lists with
zeros of different signs. -/
theorem equal_laws_maps :
    let twice (id : NodeId) : MapNode := ⟨.any, .ofList [("a", .sequence .list id), ("b", .sequence .list id)]⟩
    let list (x : Numeral.Double) : Sequence := ⟨.any, [.scalar (.double x)]⟩
    let positive : Numeral.Double := .ofMagnitude false 0
    let negative : Numeral.Double := .ofMagnitude true 0
    let g : Graph := ⟨⟨#[list .nan, list .nan, list positive, list negative, list positive]⟩, ⟨#[twice 0, twice 1]⟩,
      .empty⟩
    (g.Closed ∧ g.Grounded (.map 0) ∧ g.Grounded (.map 1) ∧ g.content (.map 0) = g.content (.map 1) ∧
      g.Unshared (.map 0) (.map 1) ∧ g.HoldsNaN (.map 0)) ∧
      g.equal (.map 0) (.map 0) = true ∧ g.equal (.map 0) (.map 1) = false ∧
      g.equal (.sequence .list 2) (.sequence .list 4) = true ∧
      g.equal (.scalar (.double .nan)) (.scalar (.double .nan)) = false := by
  intro twice list positive negative g
  have closed : g.Closed := by decide
  have grounded : ∀ v, g.Has v ∧ g.Shallow 2 v → g.Grounded v := fun v h => ⟨h.1, h.2.acyclic⟩
  have first := grounded (.map 0) (by decide)
  have second := grounded (.map 1) (by decide)
  have content : g.content (.map 0) = g.content (.map 1) := by rfl
  have unshared : g.Unshared (.map 0) (.map 1) := by
    have apart : ∀ x ∈ [.map 0, .sequence .list 0, .scalar (.double .nan)],
        ∀ y ∈ [.map 1, .sequence .list 1, .scalar (.double .nan)],
          Value.address? x = Value.address? y → Value.address? x = none := by decide
    exact fun x y hx hy => apart x (hx.mem (by decide) (by decide)) y (hy.mem (by decide) (by decide))
  have holds : g.HoldsNaN (.map 0) :=
    ⟨.double .nan, .head (b := .sequence .list 0) (by decide) (.head (by decide) .refl), by decide⟩
  obtain ⟨symm, trans, self, node, copy⟩ := equal_laws closed
  have zeros := trans (.sequence .list 2) (.sequence .list 3) (.sequence .list 4) (grounded _ (by decide))
    (grounded _ (by decide)) (grounded _ (by decide)) (by decide) (by decide)
  exact ⟨⟨closed, first, second, content, unshared, holds⟩, node _ first nofun,
    (copy _ _ first second content unshared).2 holds, zeros,
    (self _ (grounded _ (by decide))).2 ⟨_, rfl, by decide⟩⟩

end Graph

end FieldBinding
