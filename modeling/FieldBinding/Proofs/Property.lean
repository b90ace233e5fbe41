import FieldBinding.Property
import FieldBinding.Proofs.Conversion.Landing

/-!
# Properties of the type that is asked for

A source may declare a type for a value that it holds, and nothing checks that the value is of this type.  A
property that is asked for as a type is converted from the declared type.  It therefore has the type that is asked
for, or is refused, unless its source declares that very type for a value of another one: such a value is handed
out as it is.

Main result:

* `PropertyResolver.resolveAs_typed` — what becomes of a property that is asked for as a type.
-/

namespace FieldBinding.PropertyResolver

open FieldBinding.Graph

/-- What becomes of a property that is asked for as a type.  It is missing if no source knows it.  Otherwise it is
null where the stored value is null, and of the type that is asked for where it is not, or the stored value
cannot be converted and that is an error.  A value that a source declares to be of the type has to be of it. -/
theorem resolveAs_typed (r : PropertyResolver) (g : Graph) (name : String) (order : List SourceKind)
    (kind : ScalarKind) (honest : ∀ stored, r.resolveIn g name order = some stored →
      stored.type = some (.scalar kind) → stored.value = .null ∨ g.fieldTypeOf stored.value = .scalar kind) :
    match r.resolveAs g name order (.scalar kind) with
    | .ok none => r.resolveIn g name order = none
    | .ok (some p) => ∃ stored, r.resolveIn g name order = some stored ∧
        p.name = stored.name ∧ p.source = stored.source ∧ p.type = some (.scalar kind) ∧
        (p.value = .null ↔ stored.value = .null) ∧
        (p.value ≠ .null → g.fieldTypeOf p.value = .scalar kind) ∧
        g.convert (.host r.clock) stored.value stored.type (.scalar kind) = .ok p.value
    | .error fault => ∃ stored e, r.resolveIn g name order = some stored ∧ fault = .conversion e ∧
        stored.value ≠ .null ∧ g.fieldTypeOf stored.value ≠ .scalar kind ∧
        g.convert (.host r.clock) stored.value stored.type (.scalar kind) = .error e := by
  unfold resolveAs
  cases found : r.resolveIn g name order with
  | none => rfl
  | some stored =>
    simp only
    cases converted : g.convert (.host r.clock) stored.value stored.type (.scalar kind) with
    | ok u =>
      have lands := convert_lands converted
      refine ⟨stored, rfl, rfl, rfl, rfl, ?_, fun filled => ?_, converted⟩
      · rcases lands with ⟨null, null'⟩ | ⟨notNull, ⟨s, rfl, -⟩ | ⟨rfl, -⟩⟩
        · exact iff_of_true null' null
        · exact iff_of_false nofun notNull
        · exact Iff.rfl
      · rcases lands with ⟨-, null⟩ | ⟨notNull, ⟨s, rfl, ofKind⟩ | ⟨rfl, declared⟩⟩
        · exact absurd null filled
        · exact congrArg FieldType.scalar ofKind
        · exact (honest stored found declared).resolve_left notNull
    | error e =>
      refine ⟨stored, e, rfl, rfl, fun null => ?_, fun same => ?_, converted⟩
      · rw [null, convert_null] at converted
        cases converted
      · rw [convert_of_same _ stored.type same] at converted
        cases converted

/-- A source whose declared types are not those of its values. -/
def labelled : PropertyResolver where
  sources := [.entries .runtime (.ofList
    [("limit", .scalar (.integer .int ⟨80, by decide⟩), some (.scalar (.primitive .boolean))),
      ("port", .scalar (.string "8080"), some (.scalar (.primitive (.integer .int))))])]

theorem resolveAs_typed_limit :
    (∀ stored, labelled.resolveIn .empty "limit" SourceKind.all = some stored →
      stored.type = some (.scalar (.primitive (.integer .long))) → stored.value = .null ∨
        empty.fieldTypeOf stored.value = .scalar (.primitive (.integer .long))) ∧
      ∃ p, labelled.resolveAs .empty "limit" SourceKind.all (.scalar (.primitive (.integer .long))) = .ok (some p) ∧
        p.type = some (.scalar (.primitive (.integer .long))) ∧
        empty.fieldTypeOf p.value = .scalar (.primitive (.integer .long)) := by
  have honest : ∀ stored, labelled.resolveIn .empty "limit" SourceKind.all = some stored →
      stored.type = some (.scalar (.primitive (.integer .long))) → stored.value = .null ∨
        empty.fieldTypeOf stored.value = .scalar (.primitive (.integer .long)) := by
    rintro _ ⟨⟩ ⟨⟩
  obtain ⟨p, outcome, filled⟩ : ∃ p, labelled.resolveAs .empty "limit" SourceKind.all
      (.scalar (.primitive (.integer .long))) = .ok (some p) ∧ p.value ≠ .null := ⟨_, rfl, nofun⟩
  have typed := resolveAs_typed labelled .empty "limit" SourceKind.all (.primitive (.integer .long)) honest
  rw [outcome] at typed
  obtain ⟨stored, -, -, -, type, -, ofType, -⟩ := typed
  exact ⟨honest, p, outcome, type, ofType filled⟩

/-- A text that is declared to be a whole number is handed out as it is where a whole number is asked for. -/
theorem resolveAs_mislabelled :
    ∃ p, labelled.resolveAs .empty "port" SourceKind.all (.scalar (.primitive (.integer .int))) = .ok (some p) ∧
      p.type = some (.scalar (.primitive (.integer .int))) ∧
      p.value = .scalar (.string "8080") ∧ empty.fieldTypeOf p.value = .scalar .string :=
  ⟨_, rfl, rfl, rfl, rfl⟩

end FieldBinding.PropertyResolver
