import FieldBinding.Proofs.Registry.Ancestry

/-!
# Which types a place accepts

`Registry.accepts` asks a list of questions of which the first one that applies decides.  `Registry.Fits` are the same
rules without an order: anything at all fits and is fitted by every type, scalars fit if they are of one kind, objects
if one type derives from the other, and collections if they are of one kind and their elements fit.

Fitting is not transitive as it stands, since everything fits through `any`.  It is transitive over a type that does not
mention `any`, and the nullability of primitives makes no difference to it, however deep they lie.

Main results:

* `Registry.accepts_iff_fits` — a place accepts the types that fit.
* `Registry.Fits.trans`, `Registry.Fits.rebox` — transitivity, and what does not matter.
* `Registry.accepts_preorder` — the laws of acceptance.
-/

namespace FieldBinding

namespace TypeTag

/-- Whether a type says at every depth what it is. -/
def isConcrete : TypeTag → Bool
  | any => false
  | sequence _ element => element.isConcrete
  | map value => value.isConcrete
  | _ => true

/-- Two types that are the same up to the nullability of a primitive, at whatever depth it lies. -/
inductive Reboxed : TypeTag → TypeTag → Prop
  | same (a : TypeTag) : Reboxed a a
  | boxed (kind : PrimitiveKind) : Reboxed (.primitive kind) (.scalar (.primitive kind))
  | unboxed (kind : PrimitiveKind) : Reboxed (.scalar (.primitive kind)) (.primitive kind)
  | sequence (kind : SequenceKind) {a a' : TypeTag} (element : Reboxed a a') :
      Reboxed (.sequence kind a) (.sequence kind a')
  | map {a a' : TypeTag} (value : Reboxed a a') : Reboxed (.map a) (.map a')

theorem primitiveKind?_eq_some_iff {a : TypeTag} {kind : PrimitiveKind} :
    a.primitiveKind? = some kind ↔ a.fieldType = .scalar (.primitive kind) := by
  cases a with
  | scalar kind' => cases kind' <;> simp [primitiveKind?, fieldType]
  | _ => simp [primitiveKind?, fieldType]

namespace Reboxed

variable {a a' b : TypeTag}

theorem symm (reboxed : a.Reboxed a') : a'.Reboxed a := by
  induction reboxed with
  | same a => exact .same a
  | boxed kind => exact .unboxed kind
  | unboxed kind => exact .boxed kind
  | sequence kind _ ih => exact .sequence kind ih
  | map _ ih => exact .map ih

/-- Scalars of one kind are the same up to nullability. -/
theorem of_scalar {kind : ScalarKind} (scalar : a.fieldType = .scalar kind) : a.Reboxed (.scalar kind) := by
  cases a with
  | primitive kind' => exact FieldType.scalar.inj scalar ▸ .boxed kind'
  | scalar kind' => exact FieldType.scalar.inj scalar ▸ .same _
  | _ => cases scalar

/-- Conversions cannot tell the two apart. -/
theorem fieldType_eq (reboxed : a.Reboxed a') : a'.fieldType = a.fieldType := by
  cases reboxed <;> rfl

theorem of_sequence {kind : SequenceKind} (reboxed : Reboxed (.sequence kind a) b) :
    ∃ a', b = .sequence kind a' ∧ a.Reboxed a' := by
  cases reboxed with
  | same => exact ⟨a, rfl, .same a⟩
  | sequence _ element => exact ⟨_, rfl, element⟩

theorem of_map (reboxed : Reboxed (.map a) b) : ∃ a', b = .map a' ∧ a.Reboxed a' := by
  cases reboxed with
  | same => exact ⟨a, rfl, .same a⟩
  | map value => exact ⟨_, rfl, value⟩

end Reboxed

end TypeTag

namespace Registry

variable {r : Registry} {a b c a' b' : TypeTag}

/-- What can stand for a type can stand for whatever that type can stand for. -/
theorem isAssignable_trans (named : ∀ name d, r.get? name = some d → d.name = name) {x y z : String}
    (first : r.isAssignable x y) (second : r.isAssignable y z) : r.isAssignable x z := by
  rw [isAssignable_iff named] at first second ⊢
  rcases first with rfl | first
  · exact second
  · rcases second with rfl | second
    · exact .inr first
    · exact .inr (first.trans second)

/-! ## Rules -/

/-- A value of the second type can stand at a place of the first. -/
inductive Fits (r : Registry) : TypeTag → TypeTag → Prop
  | any_left (b : TypeTag) : Fits r .any b
  | any_right (a : TypeTag) : Fits r a .any
  | scalar {a b : TypeTag} {kind : ScalarKind} (left : a.fieldType = .scalar kind)
      (right : b.fieldType = .scalar kind) : Fits r a b
  | complex {name ancestor : String} (derived : r.isAssignable name ancestor) :
      Fits r (.complex ancestor) (.complex name)
  | sequence (kind : SequenceKind) {a b : TypeTag} (element : Fits r a b) :
      Fits r (.sequence kind a) (.sequence kind b)
  | map {a b : TypeTag} (value : Fits r a b) : Fits r (.map a) (.map b)

theorem accepts_sequences (r : Registry) (kind : SequenceKind) (a b : TypeTag) :
    r.accepts (.sequence kind a) (.sequence kind b) = r.accepts a b := by
  cases kind <;> rw [accepts]

theorem accepts_maps (r : Registry) (a b : TypeTag) : r.accepts (.map a) (.map b) = r.accepts a b := by
  rw [accepts]

/-- Scalars are accepted by their kind, whether or not they may be null. -/
theorem accepts_scalar_iff {kind : ScalarKind} (left : a.fieldType = .scalar kind) (known : b ≠ .any) :
    r.accepts a b ↔ b.fieldType = .scalar kind := by
  -- the question whether the types are equal comes before that for the kinds of primitives
  have eq : r.accepts a b = decide (a = b ∨ (a.primitiveKind?.isSome ∧ a.primitiveKind? = b.primitiveKind?)) := by
    cases a <;> cases left <;> cases b <;> first | rfl | exact absurd rfl known
  rw [eq, decide_eq_true_iff]
  constructor
  · rintro (rfl | ⟨primitive, same⟩)
    · exact left
    · obtain ⟨k, here⟩ := Option.isSome_iff_exists.1 primitive
      have there := same.symm.trans here
      rw [TypeTag.primitiveKind?_eq_some_iff.1 there, ← left, TypeTag.primitiveKind?_eq_some_iff.1 here]
  · intro right
    cases a <;> cases left <;> cases b <;> cases right <;> simp [TypeTag.primitiveKind?]

namespace Fits

/-- A place of scalars accepts only what fits. -/
theorem of_scalar {kind : ScalarKind} (left : a.fieldType = .scalar kind) (accepted : r.accepts a b) : r.Fits a b := by
  by_cases anything : b = .any
  · exact anything ▸ .any_right a
  · exact .scalar left ((accepts_scalar_iff left anything).1 accepted)

theorem of_accepts (accepted : r.accepts a b) : r.Fits a b := by
  induction a generalizing b with
  | any => exact .any_left b
  | primitive kind => exact of_scalar rfl accepted
  | scalar kind => exact of_scalar rfl accepted
  | complex name =>
    cases b with
    | any => exact .any_right _
    | complex name' => exact .complex (by rwa [accepts] at accepted)
    | _ => simp [accepts, TypeTag.primitiveKind?] at accepted
  | sequence kind element ih =>
    cases b with
    | any => exact .any_right _
    | sequence kind' element' =>
      obtain rfl : kind = kind' := by
        cases kind <;> cases kind' <;> first | rfl | simp [accepts, TypeTag.primitiveKind?] at accepted
      rw [accepts_sequences] at accepted
      exact .sequence kind (ih accepted)
    | _ => simp [accepts, TypeTag.primitiveKind?] at accepted
  | map value ih =>
    cases b with
    | any => exact .any_right _
    | map value' => exact .map (ih (by rwa [accepts_maps] at accepted))
    | _ => simp [accepts, TypeTag.primitiveKind?] at accepted

theorem accepts (fits : r.Fits a b) : r.accepts a b := by
  induction fits with
  | any_left b => cases b <;> rfl
  | any_right a => cases a <;> rfl
  | scalar left right =>
    refine (accepts_scalar_iff left ?_).2 right
    rintro rfl
    cases right
  | complex derived => rwa [Registry.accepts]
  | sequence kind _ ih => rwa [accepts_sequences]
  | map _ ih => rwa [accepts_maps]

end Fits

/-- A place accepts the types that fit. -/
theorem accepts_iff_fits : r.accepts a b ↔ r.Fits a b :=
  ⟨.of_accepts, Fits.accepts⟩

/-! ## Laws -/

namespace Fits

protected theorem refl (r : Registry) (a : TypeTag) : r.Fits a a := by
  induction a with
  | any => exact .any_left _
  | primitive kind => exact .scalar rfl rfl
  | scalar kind => exact .scalar rfl rfl
  | complex name => exact .complex (by simp [isAssignable])
  | sequence kind element ih => exact .sequence kind ih
  | map value ih => exact .map ih

/-- The nullability of primitives makes no difference. -/
theorem rebox (fits : r.Fits a b) (left : a.Reboxed a') (right : b.Reboxed b') : r.Fits a' b' := by
  induction fits generalizing a' b' with
  | any_left b =>
    cases left
    exact .any_left b'
  | any_right a =>
    cases right
    exact .any_right a'
  | scalar kind kind' => exact .scalar (left.fieldType_eq.trans kind) (right.fieldType_eq.trans kind')
  | complex derived =>
    cases left
    cases right
    exact .complex derived
  | sequence kind _ ih =>
    obtain ⟨element, rfl, here⟩ := left.of_sequence
    obtain ⟨element', rfl, there⟩ := right.of_sequence
    exact .sequence kind (ih here there)
  | map _ ih =>
    obtain ⟨value, rfl, here⟩ := left.of_map
    obtain ⟨value', rfl, there⟩ := right.of_map
    exact .map (ih here there)

/-- Fitting goes through a type that does not mention anything at all. -/
theorem trans (named : ∀ name d, r.get? name = some d → d.name = name) (concrete : b.isConcrete) (first : r.Fits a b)
    (second : r.Fits b c) : r.Fits a c := by
  induction first generalizing c with
  | any_left b => exact .any_left c
  | any_right a => cases concrete
  | @scalar a b kind left right =>
    -- the type in the middle is known by its kind only, which leaves no other rule for it but this and `any`
    cases second with
    | any_left => cases right
    | any_right => exact .any_right a
    | scalar right' last => exact .scalar left (by rw [last, ← right', right])
    | complex | sequence | map => cases right
  | complex derived =>
    cases second with
    | any_right => exact .any_right _
    | scalar left => cases left
    | complex derived' => exact .complex (isAssignable_trans named derived' derived)
  | sequence kind _ ih =>
    cases second with
    | any_right => exact .any_right _
    | scalar left => cases left
    | sequence _ element => exact .sequence kind (ih concrete element)
  | map _ ih =>
    cases second with
    | any_right => exact .any_right _
    | scalar left => cases left
    | map value => exact .map (ih concrete value)

end Fits

/-- A type accepts itself. -/
theorem accepts_self (r : Registry) (tag : TypeTag) : r.accepts tag tag :=
  (Fits.refl r tag).accepts

/-- Whether primitives may be null makes no difference to what is accepted. -/
theorem accepts_reboxed (left : a.Reboxed a') (right : b.Reboxed b') : r.accepts a b = r.accepts a' b' := by
  rw [Bool.eq_iff_iff, accepts_iff_fits, accepts_iff_fits]
  exact ⟨fun fits => fits.rebox left right, fun fits => fits.rebox left.symm right.symm⟩

/-- The laws of acceptance, in every registry.  Every type accepts itself, and acceptance goes through every type that
does not mention anything at all; the two types at the ends may.  Whether primitives may be null makes no difference on
either side, however deep they lie.  Collections of one kind accept each other exactly if their elements do. -/
theorem accepts_preorder (ds : List Descriptor) :
    let r := ofList ds
    (∀ a, r.accepts a a) ∧
      (∀ a b c, b.isConcrete → r.accepts a b → r.accepts b c → r.accepts a c) ∧
      (∀ a a' b b', a.Reboxed a' → b.Reboxed b' → r.accepts a b = r.accepts a' b') ∧
      (∀ kind a b, r.accepts (.sequence kind a) (.sequence kind b) = r.accepts a b) ∧
      ∀ a b, r.accepts (.map a) (.map b) = r.accepts a b := by
  intro r
  refine ⟨r.accepts_self, fun a b c concrete first second => ?_, fun a a' b b' => accepts_reboxed,
    r.accepts_sequences, r.accepts_maps⟩
  exact (Fits.trans (ofList_named ds) concrete (.of_accepts first) (.of_accepts second)).accepts

/-- Lists of a type accept lists of a type two links below it, and maps of arrays of integers accept each other whether
or not the integers may be null. -/
theorem accepts_preorder_lists :
    let middle : Descriptor := { Descriptor.ofName "Middle" with ancestors := ["Base"] }
    let leaf : Descriptor := { Descriptor.ofName "Leaf" with ancestors := ["Middle"] }
    let r := ofList [middle, leaf]
    let list name := TypeTag.sequence .list (.complex name)
    let table := fun element => TypeTag.map (.sequence .array element)
    let int := PrimitiveKind.integer .int
    ((list "Middle").isConcrete ∧ r.accepts (list "Base") (list "Middle") ∧ r.accepts (list "Middle") (list "Leaf") ∧
        r.accepts (list "Base") (list "Leaf")) ∧
      (table (.primitive int)).Reboxed (table (.scalar (.primitive int))) ∧
      r.accepts (table (.primitive int)) .any = r.accepts (table (.scalar (.primitive int))) .any := by
  intro middle leaf r list table int
  have reboxed : (table (.primitive int)).Reboxed (table (.scalar (.primitive int))) :=
    .map (.sequence .array (.boxed int))
  obtain ⟨-, through, rebox, -⟩ := accepts_preorder [middle, leaf]
  have first : r.accepts (list "Base") (list "Middle") := by
    simp only [r, list, middle, leaf]
    cbv
  have second : r.accepts (list "Middle") (list "Leaf") := by
    simp only [r, list, middle, leaf]
    cbv
  exact ⟨⟨rfl, first, second, through _ _ _ rfl first second⟩, reboxed, rebox _ _ _ _ reboxed (.same .any)⟩

end Registry

end FieldBinding
