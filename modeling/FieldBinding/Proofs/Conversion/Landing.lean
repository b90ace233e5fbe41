import FieldBinding.Conversion.Rule

/-!
# Conversions land where they are asked to

A converted scalar has the kind that was asked for, so converting it again changes nothing.  The writer relies
on this: it converts a value when the value is queued and once more when it is stored.

Main results:

* `Conversion.rule?_ruled` — the table of rules by what they do, for proofs that go through it.
* `Conversion.rule?_lands` — the rule for a pair of kinds yields scalars of the second kind.
* `Graph.convert_eq_run` — a scalar is converted by the rule for its pair of kinds.
* `Graph.convert_lands` — so does a conversion, unless the value is declared to be of that kind already.
* `Graph.convertTo_settled` — a value that has been converted to a type stays as it is, in any graph and any zone.
-/

namespace FieldBinding

namespace Conversion

/-- Whether a conversion yields scalars of a kind, if it yields anything. -/
def Lands (kind : ScalarKind) (result : Except ConversionFault Scalar) : Prop :=
  ∀ s, result = .ok s → s.kind = kind

variable {kind : ScalarKind}

theorem lands_ok {s : Scalar} (h : s.kind = kind) : Lands kind (.ok s) := by
  rintro _ ⟨rfl⟩
  exact h

theorem lands_error (fault : ConversionFault) : Lands kind (.error fault) := by
  intro s h
  cases h

theorem lands_bind {α : Type} (x : Except ConversionFault α) {f : α → Except ConversionFault Scalar}
    (h : ∀ a, Lands kind (f a)) : Lands kind (x >>= f) := by
  cases x with
  | error fault => exact lands_error fault
  | ok a => exact h a

/-! ## Primitives -/

theorem charOf_lands (code : Nat) : Lands (.primitive .char) (charOf code) := by
  unfold charOf
  split
  · exact lands_error _
  · exact lands_ok rfl

theorem narrowed_lands (x : Numeral.Double) : Lands (.primitive .float) (narrowed x) := by
  unfold narrowed
  split
  · exact lands_error _
  · split <;> exact lands_ok rfl

theorem ofNumber_lands (target : PrimitiveKind) (n : Number) :
    Lands (.primitive target) (ofNumber target n) := by
  cases target with
  | boolean => cases n <;> exact lands_ok rfl
  | char => exact lands_bind _ fun i => charOf_lands i.toNat
  | integer kind =>
    unfold ofNumber
    simp only
    split
    · exact lands_error _
    · split
      · exact lands_ok rfl
      · exact lands_error _
  | float =>
    cases n with
    | whole i => exact lands_ok rfl
    | floating x => exact narrowed_lands x
  | double => cases n <;> exact lands_ok rfl

theorem readBoolean_lands (text : String) : Lands (.primitive .boolean) (readBoolean text) := by
  unfold readBoolean
  simp only
  split
  · exact lands_ok rfl
  · split
    · exact lands_ok rfl
    · exact lands_error _

theorem readChar_lands (text : String) : Lands (.primitive .char) (readChar text) := by
  unfold readChar
  split
  · split
    · exact charOf_lands _
    · exact lands_error _
  · exact lands_error _

theorem textToPrimitive_lands (target : PrimitiveKind) (v : Value) :
    Lands (.primitive target) (textToPrimitive target v) := by
  cases target with
  | boolean => exact lands_bind _ readBoolean_lands
  | char =>
    unfold textToPrimitive
    simp only
    split
    · exact readChar_lands _
    · exact lands_error _
  | integer kind => exact lands_bind _ fun _ => lands_bind _ fun n => ofNumber_lands _ n
  | float => exact lands_bind _ fun _ => lands_bind _ narrowed_lands
  | double => exact lands_bind _ fun _ => lands_bind _ fun _ => lands_ok rfl

/-! ## Dates and times -/

theorem long_lands (i : Int) : Lands (.primitive (.integer .long)) (long i) := by
  unfold long
  split
  · exact lands_ok rfl
  · exact lands_error _

theorem toDate_lands (zone : Zone) (v : Value) : Lands .date (toDate zone v) :=
  lands_bind _ fun _ => lands_ok rfl

theorem toTime_lands (zone : Zone) (v : Value) : Lands .time (toTime zone v) := by
  unfold toTime
  split
  · split
    · exact lands_ok rfl
    · exact lands_error _
  · exact lands_bind _ fun _ => lands_ok rfl

theorem toDateTime_lands (zone : Zone) (v : Value) : Lands .dateTime (toDateTime zone v) :=
  lands_bind _ fun _ => lands_ok rfl

theorem toLocalDateTime_lands (zone : Zone) (v : Value) :
    Lands .localDateTime (toLocalDateTime zone v) :=
  lands_bind _ fun _ => lands_ok rfl

theorem toMillis_lands (zone : Zone) (v : Value) :
    Lands (.primitive (.integer .long)) (toMillis zone v) := by
  unfold toMillis
  split
  · exact long_lands _
  · exact lands_bind _ fun _ => long_lands _

theorem textToDate_lands (v : Value) : Lands .date (textToDate v) := by
  refine lands_bind _ fun text => ?_
  split
  · exact lands_ok rfl
  · exact lands_error _

theorem textToTime_lands (v : Value) : Lands .time (textToTime v) := by
  refine lands_bind _ fun text => ?_
  split
  · exact lands_ok rfl
  · exact lands_error _

theorem textToLocalDateTime_lands (v : Value) : Lands .localDateTime (textToLocalDateTime v) := by
  refine lands_bind _ fun text => ?_
  split
  · exact lands_ok rfl
  · exact lands_error _

theorem textToDateTime_lands (zone : Zone) (v : Value) :
    Lands .dateTime (textToDateTime zone v) := by
  refine lands_bind _ fun text => ?_
  split
  · exact lands_ok rfl
  · split
    · exact lands_error _
    · exact lands_bind _ fun _ => lands_ok rfl

/-! ## Rules -/

/-- The table of rules, by what they do.  Dates and times are made in one way from all kinds that have them, though not
with the same concerns. -/
inductive Ruled : ScalarKind → ScalarKind → Rule → Prop where
  | primitive {source target : PrimitiveKind} (apart : source ≠ target) :
      Ruled (.primitive source) (.primitive target) ⟨primitiveConcerns source target, fun _ _ => toPrimitive target⟩
  | readPrimitive (target : PrimitiveKind) :
      Ruled .string (.primitive target) ⟨textConcerns target, fun _ _ => textToPrimitive target⟩
  | readDate : Ruled .string .date ⟨[.format], fun _ _ => textToDate⟩
  | readTime : Ruled .string .time ⟨[.format], fun _ _ => textToTime⟩
  | readDateTime : Ruled .string .dateTime ⟨[.format, .timezone], fun _ => textToDateTime⟩
  | readLocalDateTime : Ruled .string .localDateTime ⟨[.format], fun _ _ => textToLocalDateTime⟩
  | text {source : ScalarKind} (written : source ≠ .string) :
      Ruled source .string ⟨[], fun g _ v => .ok (.string (g.text v))⟩
  | date {source : ScalarKind} {concerns : List Concern}
      (declared : source = .dateTime ∧ concerns = [.timezone, .loss] ∨ source = .localDateTime ∧ concerns = [.loss] ∨
        source = .primitive (.integer .long) ∧ concerns = [.range, .timezone]) :
      Ruled source .date ⟨concerns, fun _ => toDate⟩
  | time {source : ScalarKind} {concerns : List Concern}
      (declared : source = .dateTime ∧ concerns = [.timezone, .loss] ∨ source = .localDateTime ∧ concerns = [.loss] ∨
        source = .primitive (.integer .long) ∧ concerns = [.range]) :
      Ruled source .time ⟨concerns, fun _ => toTime⟩
  | dateTime {source : ScalarKind} {concerns : List Concern}
      (declared : source = .date ∧ concerns = [.timezone] ∨ source = .localDateTime ∧ concerns = [.timezone] ∨
        source = .primitive (.integer .long) ∧ concerns = [.range, .timezone]) :
      Ruled source .dateTime ⟨concerns, fun _ => toDateTime⟩
  | localDateTime {source : ScalarKind} {concerns : List Concern}
      (declared : source = .date ∧ concerns = [] ∨ source = .dateTime ∧ concerns = [.timezone, .loss] ∨
        source = .primitive (.integer .long) ∧ concerns = [.range, .timezone]) :
      Ruled source .localDateTime ⟨concerns, fun _ => toLocalDateTime⟩
  | millis {source : ScalarKind} {concerns : List Concern}
      (declared : source = .date ∧ concerns = [.timezone] ∨ source = .time ∧ concerns = [] ∨
        source = .dateTime ∧ concerns = [.loss] ∨ source = .localDateTime ∧ concerns = [.timezone, .loss]) :
      Ruled source (.primitive (.integer .long)) ⟨concerns, fun _ => toMillis⟩

theorem rule?_ruled {source target : ScalarKind} {rule : Rule} (h : rule? source target = some rule) :
    Ruled source target rule := by
  unfold rule? at h
  split at h
  · split at h
    · cases h
    · next apart =>
      cases h
      exact .primitive apart
  all_goals cases h
  all_goals first
    | exact .readPrimitive _
    | exact .readDate
    | exact .readTime
    | exact .readDateTime
    | exact .readLocalDateTime
    | exact .text (by assumption)
    | exact .date (by simp)
    | exact .time (by simp)
    | exact .dateTime (by simp)
    | exact .localDateTime (by simp)
    | exact .millis (by simp)

/-- The rule for a pair of kinds yields scalars of the second kind. -/
theorem rule?_lands {source target : ScalarKind} {rule : Rule} (h : rule? source target = some rule)
    (g : Graph) (zone : Zone) (v : Value) : Lands target (rule.run g zone v) := by
  cases rule?_ruled h with
  | primitive => exact lands_bind _ fun n => ofNumber_lands _ n
  | readPrimitive target => exact textToPrimitive_lands target v
  | readDate => exact textToDate_lands v
  | readTime => exact textToTime_lands v
  | readDateTime => exact textToDateTime_lands zone v
  | readLocalDateTime => exact textToLocalDateTime_lands v
  | text => exact lands_ok rfl
  | date => exact toDate_lands zone v
  | time => exact toTime_lands zone v
  | dateTime => exact toDateTime_lands zone v
  | localDateTime => exact toLocalDateTime_lands zone v
  | millis => exact toMillis_lands zone v

/-- A rule asks a graph for the text of the value at most. -/
theorem rule?_congr {source target : ScalarKind} {rule : Rule} (h : rule? source target = some rule)
    {g g' : Graph} {v : Value} (zone : Zone) (text : g'.text v = g.text v) :
    rule.run g' zone v = rule.run g zone v := by
  cases rule?_ruled h with
  | text => exact congrArg (fun t => Except.ok (Scalar.string t)) text
  | _ => rfl

/-- There is no rule for a kind and itself. -/
theorem rule?_self (kind : ScalarKind) : rule? kind kind = none := by
  cases kind with
  | primitive kind => exact if_pos rfl
  | _ => rfl

end Conversion

namespace Graph

/-- Only a scalar has a type of scalars. -/
theorem eq_scalar_of_fieldTypeOf {g : Graph} {v : Value} {kind : ScalarKind}
    (h : g.fieldTypeOf v = .scalar kind) : ∃ s, v = .scalar s ∧ s.kind = kind := by
  cases v with
  | scalar s => exact ⟨s, rfl, FieldType.scalar.inj h⟩
  | _ => simp [fieldTypeOf, tagOf, TypeTag.fieldType] at h

/-- A value of the type that is asked for needs no conversion, whatever is declared. -/
theorem convert_of_same {g : Graph} {v : Value} {kind : ScalarKind} (zone : Zone)
    (declared : Option FieldType) (h : g.fieldTypeOf v = .scalar kind) :
    g.convert zone v declared (.scalar kind) = .ok v := by
  obtain ⟨s, rfl, -⟩ := eq_scalar_of_fieldTypeOf h
  simp [convert, Value.isNull, h]

/-- A scalar of the kind that is asked for needs no conversion. -/
theorem convert_of_kind (g : Graph) (zone : Zone) {s : Scalar} {kind : ScalarKind}
    (h : s.kind = kind) : g.convert zone (.scalar s) none (.scalar kind) = .ok (.scalar s) :=
  convert_of_same zone none (congrArg FieldType.scalar h)

/-- A scalar is converted by the rule for its kind and the kind that is asked for. -/
theorem convert_eq_run (g : Graph) {zone : Zone} {s : Scalar} {target : ScalarKind}
    {rule : Conversion.Rule} (found : Conversion.rule? s.kind target = some rule) :
    g.convert zone (.scalar s) none (.scalar target) =
      match rule.run g zone (.scalar s) with
      | .ok a => .ok (.scalar a)
      | .error fault => .error ⟨.scalar s.kind, .scalar target, fault⟩ := by
  have apart : s.kind ≠ target := by
    intro same
    rw [same, Conversion.rule?_self] at found
    cases found
  have type : g.fieldTypeOf (.scalar s) = .scalar s.kind := rfl
  have between : Conversion.ruleBetween? (.scalar s.kind) (.scalar target) = some rule := found
  cases made : rule.run g zone (.scalar s) <;>
    simp only [convert, Value.isNull, Bool.false_eq_true, if_false, Option.filter_none, Option.getD_none, type,
      FieldType.scalar.injEq, apart, reduceCtorEq, or_self, between, made]

theorem convert_of_rule (g : Graph) {zone : Zone} {s a : Scalar} {target : ScalarKind}
    {rule : Conversion.Rule} (found : Conversion.rule? s.kind target = some rule)
    (made : rule.run g zone (.scalar s) = .ok a) :
    g.convert zone (.scalar s) none (.scalar target) = .ok (.scalar a) := by
  rw [convert_eq_run g found, made]

/-- Null needs no conversion. -/
theorem convertTo_null (g : Graph) (zone : Zone) (tag : TypeTag) :
    g.convertTo zone .null tag = .ok .null := by
  unfold convertTo
  cases tag.fieldType <;> rfl

/-- What a value is converted to is a scalar or null, if it is not the value itself. -/
theorem convertTo_cases {g : Graph} {zone : Zone} {v u : Value} {tag : TypeTag}
    (h : g.convertTo zone v tag = .ok u) : u = v ∨ u = .null ∨ ∃ s, u = .scalar s := by
  unfold convertTo at h
  split at h
  · unfold convert at h
    split at h
    · exact .inr (.inl (Except.ok.inj h).symm)
    · simp only at h
      split at h
      · exact .inl (Except.ok.inj h).symm
      · split at h
        · cases h
        · split at h
          · next s _ => exact .inr (.inr ⟨s, (Except.ok.inj h).symm⟩)
          · cases h
  · exact .inl (Except.ok.inj h).symm
  · exact .inl (Except.ok.inj h).symm

theorem text_scalar (g : Graph) (s : Scalar) : g.text (.scalar s) = s.text := by
  have content : ∀ depth, g.contentWithin depth (.scalar s) = .scalar s := by
    intro depth
    cases depth <;> rfl
  rw [text, Graph.content, content, Tree.text]

/-- Every scalar is converted to its text. -/
theorem convert_text (g : Graph) (zone : Zone) (s : Scalar) :
    g.convert zone (.scalar s) none (.scalar .string) = .ok (.scalar (.string s.text)) := by
  have written : (Except.ok (.string (g.text (.scalar s))) : Except ConversionFault Scalar) = .ok (.string s.text) := by
    rw [text_scalar]
  cases s with
  | string text => exact convert_of_kind g zone rfl
  | _ => exact convert_of_rule g rfl written

/-- Where a value has no parts the graph does not matter. -/
theorem convertTo_congr {g g' : Graph} {zone : Zone} {v : Value}
    (leaf : v = .null ∨ ∃ s, v = .scalar s) (tag : TypeTag) :
    g'.convertTo zone v tag = g.convertTo zone v tag := by
  rcases leaf with rfl | ⟨s, rfl⟩
  · unfold convertTo
    cases tag.fieldType <;> rfl
  · have type : g'.fieldTypeOf (.scalar s) = g.fieldTypeOf (.scalar s) := rfl
    unfold convertTo
    cases tag.fieldType with
    | complex => rfl
    | any => rfl
    | scalar kind =>
      simp only [convert, type]
      split
      · rfl
      · split
        · rfl
        · split
          · rfl
          · next rule hrule =>
            simp only [Conversion.ruleBetween?, Option.bind_eq_bind, Option.bind_eq_some_iff] at hrule
            obtain ⟨source, -, target, -, found⟩ := hrule
            have text := (text_scalar g' s).trans (text_scalar g s).symm
            rw [Conversion.rule?_congr found zone text]

/-- What a value is converted to is null where the value is, and is of the kind that is asked for otherwise.  Only a
value that is declared to be of that kind is not looked at. -/
theorem convert_lands {g : Graph} {zone : Zone} {v u : Value} {declared : Option FieldType}
    {kind : ScalarKind} (h : g.convert zone v declared (.scalar kind) = .ok u) :
    (v = .null ∧ u = .null) ∨
      v ≠ .null ∧ ((∃ s, u = .scalar s ∧ s.kind = kind) ∨ u = v ∧ declared = some (.scalar kind)) := by
  by_cases null : v = .null
  · subst null
    exact .inl ⟨rfl, (Except.ok.inj h).symm⟩
  refine .inr ⟨null, ?_⟩
  have notNull : v.isNull = false := Value.isNull_eq_false_iff.2 null
  unfold convert at h
  simp only [notNull, Bool.false_eq_true, if_false, reduceCtorEq, or_false] at h
  split at h
  · next same =>
    obtain rfl := Except.ok.inj h
    rcases same with same | same
    · -- the declared kind is the one that is asked for, or there is no declared kind
      cases usable : declared.filter (·.scalarKind?.isSome) with
      | none => exact .inl (eq_scalar_of_fieldTypeOf (by simpa [usable] using same))
      | some type =>
        obtain rfl : type = .scalar kind := by simpa [usable] using same
        exact .inr ⟨rfl, (Option.filter_eq_some_iff.1 usable).1⟩
    · exact .inl (eq_scalar_of_fieldTypeOf same)
  · split at h
    · cases h
    · next rule hrule =>
      split at h
      · next s hs =>
        obtain rfl := Except.ok.inj h
        simp only [Conversion.ruleBetween?, Option.bind_eq_bind, Option.bind_eq_some_iff] at hrule
        obtain ⟨source, -, target, htarget, found⟩ := hrule
        obtain rfl : kind = target := Option.some.inj htarget
        exact .inl ⟨s, rfl, Conversion.rule?_lands found g zone v s hs⟩
      · cases h

/-- What a value is converted to is of the kind that is asked for, or null. -/
theorem convertTo_lands {g : Graph} {zone : Zone} {v u : Value} {tag : TypeTag} {kind : ScalarKind}
    (scalar : tag.fieldType = .scalar kind) (h : g.convertTo zone v tag = .ok u) :
    u = .null ∨ ∃ s, u = .scalar s ∧ s.kind = kind := by
  unfold convertTo at h
  simp only [scalar] at h
  rcases convert_lands h with ⟨-, null⟩ | ⟨-, lands | ⟨-, undeclared⟩⟩
  · exact .inl null
  · exact .inr lands
  · cases undeclared

/-- What a value is converted to is null where the value is, and only there. -/
theorem convertTo_eq_null_iff {g : Graph} {zone : Zone} {v u : Value} {tag : TypeTag} {kind : ScalarKind}
    (scalar : tag.fieldType = .scalar kind) (h : g.convertTo zone v tag = .ok u) : u = .null ↔ v = .null := by
  unfold convertTo at h
  simp only [scalar] at h
  rcases convert_lands h with ⟨value, null⟩ | ⟨value, ⟨s, lands, -⟩ | ⟨-, undeclared⟩⟩
  · exact iff_of_true null value
  · exact iff_of_false (lands ▸ Value.noConfusion) value
  · cases undeclared

/-- A value that has been converted to a type stays as it is, in any graph and in any zone. -/
theorem convertTo_settled {g : Graph} {zone zone' : Zone} {v u : Value} {tag : TypeTag}
    (h : g.convertTo zone v tag = .ok u) (g' : Graph) : g'.convertTo zone' u tag = .ok u := by
  unfold convertTo
  cases htype : tag.fieldType with
  | complex => rfl
  | any => rfl
  | scalar kind =>
    rcases convertTo_lands htype h with rfl | ⟨s, rfl, hs⟩
    · exact convert_null g' zone' none _
    · exact convert_of_kind g' zone' hs

end Graph

end FieldBinding
