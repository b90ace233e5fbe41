import FieldBinding.Proofs.Path.WellFormed
import FieldBinding.Proofs.Reading.Untyped

/-!
# The joints of a path

An access does not say whether an index is one of an array or of a list, and both can be written at a path.  A `Joint`
does say so.  It knows its brackets, so it is known which collection a writer makes where a path goes through the
joint.

Paths may be written to one document if they agree on the brackets behind names that they have in common.  Then their
joints agree: up to the first label in which two ways differ they go through the same brackets.

Main results:

* `agree_joints` — paths with the same brackets have joints that agree.
* `Agree.front_of_labels` — of ways that agree one is in front of another if its labels are.
-/

namespace FieldBinding

/-! ## Joints -/

/-- One way into a value, with the brackets in which it is written. -/
inductive Joint where
  | name (name : String)
  | item (kind : SequenceKind) (index : Nat)
  | entry (key : String)
  deriving DecidableEq, Repr

/-- The type of the collections that are made for brackets, or where there are none. -/
def Bracket.collectionType : Option Bracket → TypeTag
  | some (.element kind) => .sequence kind .any
  | _ => .map .any

namespace Joint

/-- The brackets of a joint. -/
def bracket? : Joint → Option Bracket
  | name _ => none
  | item kind _ => some (.element kind)
  | entry _ => some .entry

/-- The access of a joint. -/
def access : Joint → Access
  | name text => .name text
  | item _ n => .slot (.index n)
  | entry key => .slot (.key key)

/-- The label of the slot that is opened. -/
def label (j : Joint) : String :=
  j.access.label

/-- The type of the collections that are made for the joint. -/
def type (j : Joint) : TypeTag :=
  Bracket.collectionType j.bracket?

/-- A joint is known from its brackets and its label. -/
theorem ext_label {i j : Joint} (brackets : i.bracket? = j.bracket?) (labels : i.label = j.label) :
    i = j := by
  cases i with
  | name text =>
    cases j with
    | name => exact congrArg name labels
    | _ => cases brackets
  | item kind n =>
    cases j with
    | item =>
      cases brackets
      exact congrArg (item kind) (Numeral.text_injective labels)
    | _ => cases brackets
  | entry key =>
    cases j with
    | entry => exact congrArg entry labels
    | _ => cases brackets

end Joint

/-! ## Ways that agree -/

/-- Up to the first label in which two ways differ they go through the same brackets. -/
def Agree : List Joint → List Joint → Prop
  | i :: ahead, j :: behind => i.bracket? = j.bracket? ∧ (i.label = j.label → Agree ahead behind)
  | _, _ => True

namespace Agree

variable {way other : List Joint}

@[simp]
theorem nil_right (way : List Joint) : Agree way [] := by
  cases way <;> trivial

/-- Behind the same labels there are the same brackets. -/
theorem bracket_eq {front back front' back' : List Joint} {i j : Joint}
    (agree : Agree (front ++ i :: back) (front' ++ j :: back'))
    (labels : front.map Joint.label = front'.map Joint.label) : i.bracket? = j.bracket? := by
  induction front generalizing front' with
  | nil =>
    obtain rfl : front' = [] := by simpa using labels.symm
    exact agree.1
  | cons first rest ih =>
    cases front' with
    | nil => cases labels
    | cons first' rest' =>
      obtain ⟨same, labels⟩ := List.cons.inj labels
      exact ih (agree.2 same) labels

/-- Of ways that agree one is in front of another if its labels are. -/
theorem front_of_labels (agree : Agree way other)
    (labels : way.map Joint.label <+: other.map Joint.label) : way <+: other := by
  induction way generalizing other with
  | nil => exact List.nil_prefix
  | cons i rest ih =>
    cases other with
    | nil => cases List.prefix_nil.1 labels
    | cons j rest' =>
      obtain ⟨same, labels⟩ := List.cons_prefix_cons.1 labels
      exact List.cons_prefix_cons.2 ⟨Joint.ext_label agree.1 same, ih (agree.2 same) labels⟩

end Agree

/-! ## Paths -/

/-- The joint of the single place that is selected. -/
def Selector.joint? : Selector → Option Joint
  | element kind (some n) => some (.item kind n)
  | entry (some key) => some (.entry key)
  | _ => none

namespace Segment

/-- The joints that a segment stands for: its name, and the place in its brackets. -/
def joints (s : Segment) : List Joint :=
  s.names.map .name ++ s.selector.joint?.toList

theorem access_joint? (selector : Selector) :
    selector.joint?.map Joint.access = selector.slot?.map .slot := by
  rcases selector with _ | ⟨kind, _ | n⟩ | ⟨_ | key⟩ <;> rfl

/-- Brackets that are no wildcard are a joint. -/
theorem joint?_of_single {s : Segment} (collection : s.isCollection) (single : s.isWildcard = false) :
    ∃ j, s.selector.joint? = some j := by
  obtain ⟨slot, hslot⟩ := Writer.slot?_of_single collection single
  have joint := access_joint? s.selector
  rw [hslot] at joint
  obtain ⟨j, found, -⟩ := Option.map_eq_some_iff.1 joint
  exact ⟨j, found⟩

theorem joint?_eq_none {s : Segment} (plain : s.isCollection = false) : s.selector.joint? = none := by
  have joint := access_joint? s.selector
  rwa [Writer.slot?_eq_none plain, Option.map_none, Option.map_eq_none_iff] at joint

/-- A joint has the brackets of its segment. -/
theorem bracket?_of_joint? {selector : Selector} {j : Joint} (joint : selector.joint? = some j) :
    selector.bracket? = j.bracket? := by
  rcases selector with _ | ⟨kind, _ | m⟩ | ⟨_ | key⟩ <;> cases joint <;> rfl

/-- A joint stands for the place that its segment selects. -/
theorem slot?_of_joint? {selector : Selector} {j : Joint} (joint : selector.joint? = some j) :
    ∃ slot, selector.slot? = some slot ∧ j.label = Graph.label slot := by
  rcases selector with _ | ⟨kind, _ | m⟩ | ⟨_ | key⟩ <;> cases joint <;> exact ⟨_, rfl, rfl⟩

theorem joint_of_index? {selector : Selector} {j : Joint} {n : Nat} (index : selector.index? = some n)
    (joint : selector.joint? = some j) : ∃ kind, j = .item kind n := by
  rcases selector with _ | ⟨kind, _ | m⟩ | ⟨_ | key⟩ <;> cases joint <;> cases index
  exact ⟨kind, rfl⟩

theorem access_joints (s : Segment) : s.joints.map Joint.access = s.accesses := by
  have names : s.names.map (Joint.access ∘ Joint.name) = s.names.map .name := rfl
  rw [joints, accesses, List.map_append, List.map_map, names, ← access_joint?]
  cases s.selector.joint? <;> rfl

theorem label_joints (s : Segment) : s.joints.map Joint.label = s.labels := by
  rw [← labels_accesses, ← access_joints, List.map_map]
  rfl

end Segment

/-- Of paths that are the same up to a position and have one name there, the brackets there are of one kind. -/
def SameBrackets (segments others : List Segment) : Prop :=
  ∀ n s t, segments.take n = others.take n → segments[n]? = some s → others[n]? = some t → s.name = t.name →
    s.selector.bracket? = t.selector.bracket?

/-- Only the positions of the segments have to be looked at. -/
theorem sameBrackets_iff (segments others : List Segment) : SameBrackets segments others ↔
    ∀ n < segments.length, segments.take n = others.take n → ∀ s ∈ segments[n]?, ∀ t ∈ others[n]?,
      s.name = t.name → s.selector.bracket? = t.selector.bracket? := by
  constructor
  · intro same n _ front s hs t ht
    exact same n s t front hs ht
  · intro same n s t front hs ht
    obtain ⟨bound, -⟩ := List.getElem?_eq_some_iff.1 hs
    exact same n bound front s hs t ht

instance (segments others : List Segment) : Decidable (SameBrackets segments others) :=
  decidable_of_iff _ (sameBrackets_iff segments others).symm

namespace Path

/-- The joints that a path stands for. -/
def joints (p : Path) : List Joint :=
  p.followed.flatMap Segment.joints

theorem access_joints (p : Path) : p.joints.map Joint.access = p.accesses := by
  rw [accesses, joints, List.map_flatMap]
  exact List.flatMap_congr fun s _ => s.access_joints

theorem label_joints (p : Path) : p.joints.map Joint.label = p.route := by
  rw [← labels_accesses, ← access_joints, List.map_map]
  rfl

/-- A plain root stands for no joint. -/
theorem joints_eq {p : Path} (wellFormed : p.WellFormed) :
    p.joints = p.head.selector.joint?.toList ++ p.tail.flatMap Segment.joints := by
  rw [joints]
  by_cases bracketed : p.head.isCollection
  · rw [Path.followed_of_bracketed bracketed, List.flatMap_cons, Segment.joints,
      Segment.names_of_eq wellFormed.head_name]
    rfl
  · rw [Path.followed_of_plain bracketed]
    cases selector : p.head.selector with
    | plain => rfl
    | _ => simp [Segment.isCollection, selector, Selector.bracket?] at bracketed

/-- Exactly the first segment of a path that a text writes is its root. -/
theorem isRoot_of_parse {text : String} {p : Path} (h : parse text = .ok p) :
    p.head.isRoot = true ∧ ∀ s ∈ p.tail, s.isRoot = false := by
  have piece : ∀ isRoot text, (Segment.ofPiece isRoot text).isRoot = isRoot := by
    intro isRoot text
    unfold Segment.ofPiece
    split <;> rfl
  have below : ∀ pieces : List (List Char),
      ∀ s ∈ (pieces.filter (!·.isEmpty)).map (Segment.ofPiece false), s.isRoot = false := by
    intro pieces s hs
    obtain ⟨text, -, rfl⟩ := List.mem_map.1 hs
    exact piece false text
  unfold parse at h
  split at h
  case isTrue => cases h
  rw [Except.ok.injEq] at h
  subst h
  unfold ofPieces
  simp only
  split
  · exact ⟨rfl, by simp [root]⟩
  · split
    · exact ⟨piece true _, below _⟩
    · exact ⟨rfl, below _⟩

end Path

/-! ## Paths that agree -/

/-- The same brackets agree, and what is behind them counts only if they select the same place. -/
theorem agree_selectors {s t : Segment} {ahead behind : List Joint}
    (brackets : s.selector.bracket? = t.selector.bracket?) (single : s.isWildcard = false)
    (single' : t.isWildcard = false) (next : s.selector = t.selector → Agree ahead behind) :
    Agree (s.selector.joint?.toList ++ ahead) (t.selector.joint?.toList ++ behind) := by
  obtain ⟨_, selector, _⟩ := s
  obtain ⟨_, selector', _⟩ := t
  simp only at brackets next ⊢
  cases selector with
  | plain =>
    cases selector' with
    | plain => exact next rfl
    | _ => cases brackets
  | element kind index =>
    cases selector' with
    | element kind' index' =>
      cases brackets
      cases index with
      | none => cases single
      | some n =>
        cases index' with
        | none => cases single'
        | some m =>
          refine ⟨rfl, fun same => next ?_⟩
          rw [Numeral.text_injective same]
    | _ => cases brackets
  | entry key =>
    cases selector' with
    | entry key' =>
      cases key with
      | none => cases single
      | some k =>
        cases key' with
        | none => cases single'
        | some k' => exact ⟨rfl, fun same => next (congrArg (Selector.entry ∘ some) same)⟩
    | _ => cases brackets

/-- Below the root, segments with the same brackets have joints that agree. -/
theorem agree_below {segments others : List Segment} (single : ∀ s ∈ segments, s.isWildcard = false)
    (single' : ∀ s ∈ others, s.isWildcard = false) (below : ∀ s ∈ segments, s.isRoot = false)
    (below' : ∀ s ∈ others, s.isRoot = false) (named : ∀ s ∈ segments, s.name ≠ "")
    (named' : ∀ s ∈ others, s.name ≠ "") (same : SameBrackets segments others) :
    Agree (segments.flatMap Segment.joints) (others.flatMap Segment.joints) := by
  induction segments generalizing others with
  | nil => trivial
  | cons s rest ih =>
    cases others with
    | nil => exact Agree.nil_right _
    | cons t rest' =>
      rw [List.forall_mem_cons] at single single' below below' named named'
      rw [List.flatMap_cons, List.flatMap_cons, Segment.joints, Segment.joints,
        Segment.names_of_ne named.1, Segment.names_of_ne named'.1, List.append_assoc, List.append_assoc]
      refine ⟨rfl, fun names => agree_selectors (same 0 s t rfl rfl rfl names) single.1 single'.1 fun selectors => ?_⟩
      -- the first segments are the same, so the others have the same brackets in their turn
      obtain rfl : s = t := by
        obtain ⟨_, _, _⟩ := s
        obtain ⟨_, _, _⟩ := t
        simp_all [Joint.label, Joint.access, Access.label]
      exact ih single.2 single'.2 below.2 below'.2 named.2 named'.2
        fun n u v front hu hv => same (n + 1) u v (by simp [front]) (by simpa using hu) (by simpa using hv)

/-- Paths with the same brackets have joints that agree. -/
theorem agree_joints {text text' : String} {p q : Path} (parsed : Path.parse text = .ok p)
    (parsed' : Path.parse text' = .ok q) (single : p.hasWildcard = false) (single' : q.hasWildcard = false)
    (named : ∀ s ∈ p.tail, s.name ≠ "") (named' : ∀ s ∈ q.tail, s.name ≠ "")
    (same : SameBrackets p.segments q.segments) : Agree p.joints q.joints := by
  have wellFormed := Path.wellFormed_of_parse parsed
  have wellFormed' := Path.wellFormed_of_parse parsed'
  obtain ⟨root, below⟩ := Path.isRoot_of_parse parsed
  obtain ⟨root', below'⟩ := Path.isRoot_of_parse parsed'
  have single_of := fun s => Path.single_of_mem single (s := s)
  have single_of' := fun s => Path.single_of_mem single' (s := s)
  have names : p.head.name = q.head.name := wellFormed.head_name.trans wellFormed'.head_name.symm
  rw [Path.joints_eq wellFormed, Path.joints_eq wellFormed']
  refine agree_selectors (same 0 _ _ rfl rfl rfl names) (single_of _ List.mem_cons_self)
    (single_of' _ List.mem_cons_self) fun selectors => ?_
  have heads : p.head = q.head := by
    cases hp : p.head
    cases hq : q.head
    simp_all
  exact agree_below (fun s hs => single_of s (List.mem_cons_of_mem _ hs))
    (fun s hs => single_of' s (List.mem_cons_of_mem _ hs)) below below' named named'
    fun n s t front hs ht => same (n + 1) s t (by simp [Path.segments, heads, front])
      (by simpa [Path.segments] using hs) (by simpa [Path.segments] using ht)

end FieldBinding
