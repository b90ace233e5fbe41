import Mathlib
import FieldBinding.Proofs.Calendar.DayNumber
import FieldBinding.Proofs.Conversion.Landing

/-!
# The concerns of a conversion are declared

The table of conversions declares for every pair of kinds with which concerns a conversion can fail.  Here every
failing branch is followed to its concern: a conversion between primitives fails for its range and not at all
where the source fits into the target, the reading of a text fails for its format or its range, and conversions of
dates and times fail for their zone or their range.

One pair is not declared as it is: an instant becomes an integer in a zone, and an unknown zone makes that fail.

Main results:

* `Conversion.rule?_failsWith` — a rule fails with one of its concerns.
* `Graph.convert_error_declared` — a conversion fails with a concern that is declared for its pair of types.
-/

namespace FieldBinding

/-- Whether all dates of a scalar are dates that the calendar supports. -/
def Scalar.isSupported : Scalar → Bool
  | .date d => d.isSupported
  | .dateTime i => i.utc.date.isSupported
  | .localDateTime l => l.date.isSupported
  | _ => true

namespace Conversion

/-- Whether a conversion fails with one of some concerns, if it fails. -/
def FailsWith {α : Type} (concerns : List Concern) (result : Except ConversionFault α) : Prop :=
  ∀ fault, result = .error fault → fault.concern ∈ concerns

section FailsWith

variable {α β : Type} {concerns more : List Concern} {x : Except ConversionFault α}

theorem failsWith_ok (a : α) : FailsWith concerns (.ok a) := by
  intro fault h
  cases h

theorem failsWith_error {fault : ConversionFault} (h : fault.concern ∈ concerns) :
    FailsWith concerns (.error fault : Except ConversionFault α) := by
  rintro _ ⟨rfl⟩
  exact h

theorem failsWith_bind (hx : FailsWith concerns x) {f : α → Except ConversionFault β}
    (hf : ∀ a, x = .ok a → FailsWith concerns (f a)) : FailsWith concerns (x >>= f) := by
  cases x with
  | error fault => exact failsWith_error (hx fault rfl)
  | ok a => exact hf a rfl

theorem FailsWith.mono (h : FailsWith concerns x) (sub : concerns ⊆ more) : FailsWith more x :=
  fun fault failed => sub (h fault failed)

end FailsWith

theorem bind_eq_ok {α β : Type} {x : Except ConversionFault α} {f : α → Except ConversionFault β} {b : β}
    (h : (x >>= f) = .ok b) : ∃ a, x = .ok a ∧ f a = .ok b := by
  cases x with
  | error fault => cases h
  | ok a => exact ⟨a, rfl, h⟩

/-! ## Numbers -/

/-- Whether a number can be the value of a primitive of a kind.  Characters go beyond sixteen bits. -/
def ValueOf (n : Number) : PrimitiveKind → Prop
  | .boolean => ∃ i, n = .whole i ∧ 0 ≤ i ∧ i ≤ 1
  | .char => ∃ i, n = .whole i ∧ 0 ≤ i ∧ i ≤ 0x10FFFF
  | .integer kind => ∃ i, n = .whole i ∧ kind.least ≤ i ∧ i ≤ kind.greatest
  | .float | .double => ∃ x, n = .floating x

/-- A primitive stands for a number. -/
theorem number_scalar {s : Scalar} {kind : PrimitiveKind} (h : s.kind = .primitive kind) :
    ∃ n, number (.scalar s) = .ok n ∧ ValueOf n kind := by
  cases s with
  | bool b =>
    obtain rfl : PrimitiveKind.boolean = kind := ScalarKind.primitive.inj h
    exact ⟨_, rfl, _, rfl, by cases b <;> decide⟩
  | char c =>
    obtain rfl : PrimitiveKind.char = kind := ScalarKind.primitive.inj h
    have bound : c.toNat ≤ 0x10FFFF := by
      have := c.valid
      simp only [UInt32.isValidChar, Nat.isValidChar] at this
      show c.val.toNat ≤ _
      omega
    exact ⟨_, rfl, _, rfl, by omega, by omega⟩
  | integer width i =>
    obtain rfl : PrimitiveKind.integer width = kind := ScalarKind.primitive.inj h
    exact ⟨_, rfl, _, rfl, i.fits⟩
  | float x =>
    obtain rfl : PrimitiveKind.float = kind := ScalarKind.primitive.inj h
    exact ⟨_, rfl, _, rfl⟩
  | double x =>
    obtain rfl : PrimitiveKind.double = kind := ScalarKind.primitive.inj h
    exact ⟨_, rfl, _, rfl⟩
  | _ => cases h

theorem wholeIn_failsWith (n : Number) (target : PrimitiveKind) (least greatest : Int) :
    FailsWith [.range] (wholeIn n target least greatest) := by
  unfold wholeIn
  simp only
  split
  · exact failsWith_ok _
  · exact failsWith_error (List.mem_singleton_self _)

theorem charOf_failsWith (code : Nat) : FailsWith [.range] (charOf code) := by
  unfold charOf
  split
  · exact failsWith_error (List.mem_singleton_self _)
  · exact failsWith_ok _

theorem narrowed_failsWith (x : Numeral.Double) : FailsWith [.range] (narrowed x) := by
  unfold narrowed
  split
  · exact failsWith_error (List.mem_singleton_self _)
  · split <;> exact failsWith_ok _

theorem ofNumber_failsWith (target : PrimitiveKind) (n : Number) : FailsWith [.range] (ofNumber target n) := by
  cases target with
  | boolean => cases n <;> exact failsWith_ok _
  | char => exact failsWith_bind (wholeIn_failsWith _ _ _ _) fun i _ => charOf_failsWith i.toNat
  | integer kind =>
    unfold ofNumber
    simp only
    split
    · next fault failed => exact failsWith_error (wholeIn_failsWith _ _ _ _ fault failed)
    · split
      · exact failsWith_ok _
      · exact failsWith_error (List.mem_singleton_self _)
  | float =>
    cases n with
    | whole i => exact failsWith_ok _
    | floating x => exact narrowed_failsWith x
  | double => cases n <;> exact failsWith_ok _

theorem wholeIn_whole {i least greatest : Int} (target : PrimitiveKind) (h : least ≤ i ∧ i ≤ greatest) :
    wholeIn (.whole i) target least greatest = .ok i := by
  have kept : (some i).filter (fun j => decide (least ≤ j ∧ j ≤ greatest)) = some i := by simp [h]
  simp only [wholeIn, kept]

/-- Whole numbers go into a kind of whole numbers that has room for them. -/
theorem ofNumber_integer {i : Int} {kind : IntegerKind} (h : kind.least ≤ i ∧ i ≤ kind.greatest) :
    ofNumber (.integer kind) (.whole i) = .ok (.integer kind ⟨i, h⟩) := by
  simp [ofNumber, wholeIn_whole (.integer kind) h, Bounded.of?, h]

/-- Where no range is declared for two kinds of whole numbers, the second has room for the first. -/
theorem fits_of_range_not_mem {source : PrimitiveKind} {kind : IntegerKind} {n : Number} (value : ValueOf n source)
    (total : Concern.range ∉ primitiveConcerns source (.integer kind)) :
    ∃ i, n = .whole i ∧ kind.least ≤ i ∧ i ≤ kind.greatest := by
  cases source with
  | boolean =>
    obtain ⟨i, rfl, low, high⟩ := value
    refine ⟨i, rfl, ?_⟩
    cases kind <;> simp only [IntegerKind.least, IntegerKind.greatest, IntegerKind.bits] <;> omega
  | char =>
    obtain ⟨i, rfl, low, high⟩ := value
    refine ⟨i, rfl, ?_⟩
    cases kind <;> first
      | exact absurd (by decide) total
      | simp only [IntegerKind.least, IntegerKind.greatest, IntegerKind.bits]; omega
  | integer width =>
    obtain ⟨i, rfl, low, high⟩ := value
    refine ⟨i, rfl, ?_⟩
    cases width <;> cases kind <;> first
      | exact absurd (by decide) total
      | simp only [IntegerKind.least, IntegerKind.greatest, IntegerKind.bits] at low high ⊢; omega
  | float => exact absurd (by cases kind <;> decide) total
  | double => exact absurd (by cases kind <;> decide) total

/-- Where no range is declared, every value of the source has a place in the target. -/
theorem ofNumber_total {source target : PrimitiveKind} {n : Number} (value : ValueOf n source)
    (apart : source ≠ target) (total : Concern.range ∉ primitiveConcerns source target) :
    ∃ s, ofNumber target n = .ok s := by
  cases target with
  | boolean => cases n <;> exact ⟨_, rfl⟩
  | double => cases n <;> exact ⟨_, rfl⟩
  | integer kind =>
    obtain ⟨i, rfl, fits⟩ := fits_of_range_not_mem value total
    exact ⟨_, ofNumber_integer fits⟩
  | char =>
    -- only a truth value always is the code of a character
    obtain rfl : source = .boolean := by
      rcases source with _ | _ | (_ | _ | _ | _) | _ | _ <;> first
        | rfl
        | exact absurd rfl apart
        | exact absurd (by decide) total
    obtain ⟨i, rfl, low, high⟩ := value
    obtain rfl | rfl : i = 0 ∨ i = 1 := by omega
    · exact ⟨_, rfl⟩
    · exact ⟨_, rfl⟩
  | float =>
    cases n with
    | whole i => exact ⟨_, rfl⟩
    | floating x =>
      cases source with
      | float => exact absurd rfl apart
      | double => exact absurd (by decide) total
      | boolean => obtain ⟨i, ⟨⟩, -⟩ := value
      | char => obtain ⟨i, ⟨⟩, -⟩ := value
      | integer width => obtain ⟨i, ⟨⟩, -⟩ := value

/-- A conversion between two kinds of primitives fails with a concern that is declared for them. -/
theorem toPrimitive_failsWith {s : Scalar} {source target : PrimitiveKind} (h : s.kind = .primitive source)
    (apart : source ≠ target) :
    FailsWith (primitiveConcerns source target) (toPrimitive target (.scalar s)) := by
  obtain ⟨n, hn, value⟩ := number_scalar h
  unfold toPrimitive
  rw [hn]
  by_cases total : Concern.range ∈ primitiveConcerns source target
  · exact (ofNumber_failsWith target n).mono (by simpa using total)
  · obtain ⟨t, ht⟩ := ofNumber_total value apart total
    exact fun fault failed => absurd (ht.symm.trans failed) nofun

/-! ## Texts -/

theorem readDouble_failsWith (target : PrimitiveKind) (text : String) :
    FailsWith [.format] (readDouble target text) := by
  unfold readDouble
  split
  · exact failsWith_ok _
  · exact failsWith_error (List.mem_singleton_self _)

theorem readNumber_failsWith (target : PrimitiveKind) (text : String) :
    FailsWith [.format] (readNumber target text) := by
  unfold readNumber
  split
  · exact failsWith_ok _
  · refine failsWith_bind (readDouble_failsWith target text) fun x _ => ?_
    split
    · exact failsWith_ok _
    · exact failsWith_error (List.mem_singleton_self _)

theorem readChar_failsWith (text : String) : FailsWith [.format, .range] (readChar text) := by
  unfold readChar
  split
  · split
    · exact (charOf_failsWith _).mono (by simp)
    · exact failsWith_error (by simp [ConversionFault.concern])
  · exact failsWith_error (by simp [ConversionFault.concern])

/-- Reading a primitive from a text fails with a concern that is declared for it. -/
theorem textToPrimitive_failsWith (target : PrimitiveKind) (text : String) :
    FailsWith (textConcerns target) (textToPrimitive target (.scalar (.string text))) := by
  cases target with
  | boolean =>
    refine failsWith_bind (failsWith_ok _) fun trimmed _ => ?_
    unfold readBoolean
    simp only
    split
    · exact failsWith_ok _
    · split
      · exact failsWith_ok _
      · exact failsWith_error (List.mem_singleton_self _)
  | char => exact readChar_failsWith text
  | integer kind =>
    refine failsWith_bind (failsWith_ok _) fun trimmed _ => failsWith_bind ?_ fun n _ => ?_
    · exact (readNumber_failsWith _ _).mono (by simp [textConcerns])
    · exact (ofNumber_failsWith _ _).mono (by simp [textConcerns])
  | float =>
    refine failsWith_bind (failsWith_ok _) fun trimmed _ => failsWith_bind ?_ fun x _ => ?_
    · exact (readDouble_failsWith _ _).mono (by simp [textConcerns])
    · exact (narrowed_failsWith x).mono (by simp [textConcerns])
  | double =>
    exact failsWith_bind (failsWith_ok _) fun trimmed _ =>
      failsWith_bind (readDouble_failsWith _ _) fun x _ => failsWith_ok _

/-! ## Zones and instants -/

theorem offsetOf_failsWith (name : String) : FailsWith [.timezone] (offsetOf name) := by
  unfold offsetOf
  simp only
  split
  · exact failsWith_ok _
  · split
    · exact failsWith_ok _
    · exact failsWith_error (List.mem_singleton_self _)

theorem instantAt_failsWith (offset : Offset) (l : LocalDateTime) :
    FailsWith [.timezone] (instantAt offset l) := by
  unfold instantAt
  split
  · exact failsWith_ok _
  · exact failsWith_error (List.mem_singleton_self _)

theorem attach_failsWith (zone : Zone) (l : LocalDateTime) : FailsWith [.timezone] (attach zone l) := by
  cases zone with
  | named name => exact failsWith_bind (offsetOf_failsWith name) fun offset _ => instantAt_failsWith offset l
  | host clock =>
    unfold attach
    simp only
    split
    · exact instantAt_failsWith _ l
    · exact failsWith_error (List.mem_singleton_self _)

theorem view_failsWith (zone : Zone) (i : OffsetDateTime) : FailsWith [.timezone] (view zone i) := by
  refine failsWith_bind ?_ fun _ _ => failsWith_ok _
  cases zone with
  | named name => exact offsetOf_failsWith name
  | host clock => exact failsWith_ok _

/-- The concerns of reading an instant off a scalar. -/
def instantConcerns : ScalarKind → List Concern
  | .date | .dateTime | .localDateTime => [.timezone]
  | .primitive (.integer .long) => [.range, .timezone]
  | _ => [.unsupported]

theorem instant_failsWith (zone : Zone) (s : Scalar) :
    FailsWith (instantConcerns s.kind) (instant zone (.scalar s)) := by
  cases s with
  | dateTime i =>
    cases zone with
    | named name => exact view_failsWith (.named name) i
    | host clock => exact failsWith_ok _
  | localDateTime l => exact attach_failsWith zone l
  | date d => exact attach_failsWith zone (.ofDate d)
  | integer kind i =>
    cases kind with
    | long =>
      unfold instant
      simp only
      split
      · exact failsWith_error (by simp [ConversionFault.concern, instantConcerns, Scalar.kind])
      · exact (view_failsWith zone _).mono (by simp [instantConcerns, Scalar.kind])
    | _ => exact failsWith_error (List.mem_singleton_self _)
  | _ => exact failsWith_error (List.mem_singleton_self _)

/-- The concerns of reading a date and a time off a scalar: what is a reading already needs no instant. -/
def readingConcerns : ScalarKind → List Concern
  | .date | .localDateTime => []
  | kind => instantConcerns kind

theorem reading_failsWith (zone : Zone) (s : Scalar) :
    FailsWith (readingConcerns s.kind) (reading zone (.scalar s)) := by
  cases s with
  | date d => exact failsWith_ok _
  | localDateTime l => exact failsWith_ok _
  | _ => exact failsWith_bind (instant_failsWith zone _) fun _ _ => failsWith_ok _
/-! ## Dates and times -/

theorem toDate_failsWith (zone : Zone) (s : Scalar) :
    FailsWith (readingConcerns s.kind) (toDate zone (.scalar s)) :=
  failsWith_bind (reading_failsWith zone s) fun _ _ => failsWith_ok _

theorem toLocalDateTime_failsWith (zone : Zone) (s : Scalar) :
    FailsWith (readingConcerns s.kind) (toLocalDateTime zone (.scalar s)) :=
  failsWith_bind (reading_failsWith zone s) fun _ _ => failsWith_ok _

theorem toDateTime_failsWith (zone : Zone) (s : Scalar) :
    FailsWith (instantConcerns s.kind) (toDateTime zone (.scalar s)) :=
  failsWith_bind (instant_failsWith zone s) fun _ _ => failsWith_ok _

/-- The concerns of reading a time of day off a scalar: a number has to be one of a day. -/
def timeConcerns : ScalarKind → List Concern
  | .primitive (.integer .long) => [.range]
  | kind => readingConcerns kind

theorem toTime_failsWith (zone : Zone) (s : Scalar) :
    FailsWith (timeConcerns s.kind) (toTime zone (.scalar s)) := by
  cases s with
  | integer kind i =>
    cases kind with
    | long =>
      unfold toTime
      simp only
      split
      · exact failsWith_ok _
      · exact failsWith_error (List.mem_singleton_self _)
    | _ => exact failsWith_bind (reading_failsWith zone _) fun _ _ => failsWith_ok _
  | _ => exact failsWith_bind (reading_failsWith zone _) fun _ _ => failsWith_ok _

theorem ofMillis?_isSupported {millis : Int} {i : OffsetDateTime} (h : OffsetDateTime.ofMillis? millis = some i) :
    i.utc.date.isSupported = true := by
  unfold OffsetDateTime.ofMillis? at h
  simp only at h
  split at h
  · next within =>
    obtain rfl := Option.some.inj h
    exact within
  · cases h

theorem instantAt_eq_ok {offset : Offset} {l : LocalDateTime} {i : OffsetDateTime} (h : instantAt offset l = .ok i) :
    i = ⟨l.later (-offset.seconds), offset⟩ ∧ i.utc.date.isSupported = true := by
  unfold instantAt OffsetDateTime.ofLocal? at h
  by_cases supported : (l.later (-offset.seconds)).date.isSupported = true
  · simp only [supported, if_true] at h
    obtain rfl := Except.ok.inj h
    exact ⟨rfl, supported⟩
  · simp only [supported] at h
    cases h

/-- Where the clocks of a zone show a date and time, they do so with the offset that they have at that instant. -/
theorem attach_eq_ok {zone : Zone} {l : LocalDateTime} {i : OffsetDateTime} (h : attach zone l = .ok i) :
    i.utc = l.later (-i.offset.seconds) ∧ offsetAt zone i.utc = .ok i.offset ∧ i.utc.date.isSupported = true := by
  cases zone with
  | named name =>
    obtain ⟨offset, accepted, h⟩ := bind_eq_ok h
    obtain ⟨rfl, supported⟩ := instantAt_eq_ok h
    exact ⟨rfl, accepted, supported⟩
  | host clock =>
    simp only [attach] at h
    split at h
    · next offset earliest =>
      obtain ⟨rfl, supported⟩ := instantAt_eq_ok h
      exact ⟨rfl, congrArg _ (clock.offsetAt_earliest l offset earliest), supported⟩
    · cases h

/-- An instant that is read off the clocks of a zone is the same in UTC. -/
theorem view_eq_ok {zone : Zone} {i j : OffsetDateTime} (h : view zone j = .ok i) :
    i.utc = j.utc ∧ offsetAt zone j.utc = .ok i.offset := by
  obtain ⟨offset, shown, h⟩ := bind_eq_ok h
  obtain rfl := Except.ok.inj h
  exact ⟨rfl, shown⟩

/-- The instant that a supported scalar stands for has a supported date. -/
theorem instant_isSupported {zone : Zone} {s : Scalar} {i : OffsetDateTime} (supported : s.isSupported = true)
    (h : instant zone (.scalar s) = .ok i) : i.utc.date.isSupported = true := by
  have placed : ∀ {l : LocalDateTime}, attach zone l = .ok i → i.utc.date.isSupported = true := fun h =>
    (attach_eq_ok h).2.2
  have viewed : ∀ {j : OffsetDateTime}, j.utc.date.isSupported = true → view zone j = .ok i →
      i.utc.date.isSupported = true := fun within h => (view_eq_ok h).1 ▸ within
  cases s with
  | dateTime j =>
    cases zone with
    | named name => exact viewed supported h
    | host clock =>
      cases h
      exact supported
  | localDateTime l => exact placed h
  | date d => exact placed h
  | integer kind n =>
    cases kind with
    | long =>
      unfold instant at h
      simp only at h
      split at h
      · cases h
      · next j hj => exact viewed (ofMillis?_isSupported hj) h
    | _ => cases h
  | _ => cases h

theorem long_ok {i : Int} (low : -9223372036854775808 ≤ i) (high : i ≤ 9223372036854775807) :
    ∃ s, long i = .ok s := by
  have least : IntegerKind.long.least = -9223372036854775808 := rfl
  have greatest : IntegerKind.long.greatest = 9223372036854775807 := rfl
  have fits : IntegerKind.long.least ≤ i ∧ i ≤ IntegerKind.long.greatest := by omega
  exact ⟨.integer .long ⟨i, fits⟩, by simp [long, Bounded.of?, fits]⟩

/-- The milliseconds of an instant with a supported date are an integer of 64 bits. -/
theorem long_toMillis {i : OffsetDateTime} (h : i.utc.date.isSupported = true) : ∃ s, long i.toMillis = .ok s := by
  have days := Date.toDayNumber_bounds h
  have seconds := i.utc.time.seconds_lt
  have nanos := i.utc.time.nanos_lt
  unfold OffsetDateTime.toMillis LocalDateTime.toSeconds
  exact long_ok (by omega) (by omega)

/-- The concerns of counting the milliseconds of a scalar: those of a time of day are counted without an instant. -/
def millisConcerns : ScalarKind → List Concern
  | .time => []
  | kind => instantConcerns kind

theorem toMillis_failsWith (zone : Zone) {s : Scalar} (supported : s.isSupported = true) :
    FailsWith (millisConcerns s.kind) (toMillis zone (.scalar s)) := by
  have counted : FailsWith (instantConcerns s.kind) (do long (← instant zone (.scalar s)).toMillis) := by
    refine failsWith_bind (instant_failsWith zone s) fun i hi => ?_
    obtain ⟨t, ht⟩ := long_toMillis (instant_isSupported supported hi)
    rw [ht]
    exact failsWith_ok t
  cases s with
  | time t =>
    have seconds := t.seconds_lt
    have nanos := t.nanos_lt
    obtain ⟨t', ht'⟩ := long_ok (i := t.toMillis) (by omega) (by unfold TimeOfDay.toMillis; omega)
    unfold toMillis
    simp only [ht']
    exact failsWith_ok t'
  | _ => exact counted

theorem textToDate_failsWith (text : String) : FailsWith [.format] (textToDate (.scalar (.string text))) := by
  refine failsWith_bind (failsWith_ok _) fun trimmed _ => ?_
  split
  · exact failsWith_ok _
  · exact failsWith_error (List.mem_singleton_self _)

theorem textToTime_failsWith (text : String) : FailsWith [.format] (textToTime (.scalar (.string text))) := by
  refine failsWith_bind (failsWith_ok _) fun trimmed _ => ?_
  split
  · exact failsWith_ok _
  · exact failsWith_error (List.mem_singleton_self _)

theorem textToLocalDateTime_failsWith (text : String) :
    FailsWith [.format] (textToLocalDateTime (.scalar (.string text))) := by
  refine failsWith_bind (failsWith_ok _) fun trimmed _ => ?_
  split
  · exact failsWith_ok _
  · exact failsWith_error (List.mem_singleton_self _)

theorem textToDateTime_failsWith (zone : Zone) (text : String) :
    FailsWith [.format, .timezone] (textToDateTime zone (.scalar (.string text))) := by
  refine failsWith_bind (failsWith_ok _) fun trimmed _ => ?_
  split
  · exact failsWith_ok _
  · split
    · exact failsWith_error (by simp [ConversionFault.concern])
    · exact failsWith_bind ((attach_failsWith zone _).mono (by simp)) fun _ _ => failsWith_ok _

/-! ## Rules -/

/-- A rule fails with one of its concerns, unless it counts the milliseconds of an instant. -/
theorem rule?_failsWith {source target : ScalarKind} {rule : Rule} (h : rule? source target = some rule)
    (g : Graph) (zone : Zone) {s : Scalar} (kind : s.kind = source) (supported : s.isSupported = true)
    (apart : ¬ (source = .dateTime ∧ target = .primitive (.integer .long))) :
    FailsWith rule.concerns (rule.run g zone (.scalar s)) := by
  have text : source = .string → ∃ t, s = .string t := by
    rintro rfl
    cases s with
    | string t => exact ⟨t, rfl⟩
    | _ => cases kind
  cases rule?_ruled h with
  | primitive different => exact toPrimitive_failsWith kind different
  | readPrimitive =>
    obtain ⟨t, rfl⟩ := text rfl
    exact textToPrimitive_failsWith _ t
  | readDate =>
    obtain ⟨t, rfl⟩ := text rfl
    exact textToDate_failsWith t
  | readTime =>
    obtain ⟨t, rfl⟩ := text rfl
    exact textToTime_failsWith t
  | readDateTime =>
    obtain ⟨t, rfl⟩ := text rfl
    exact textToDateTime_failsWith zone t
  | readLocalDateTime =>
    obtain ⟨t, rfl⟩ := text rfl
    exact textToLocalDateTime_failsWith t
  | text => exact failsWith_ok _
  -- what can fail in a conversion of dates and times depends on the source
  | date declared =>
    rcases declared with ⟨rfl, rfl⟩ | ⟨rfl, rfl⟩ | ⟨rfl, rfl⟩ <;>
      exact (toDate_failsWith zone s).mono (by rw [kind]; decide)
  | time declared =>
    rcases declared with ⟨rfl, rfl⟩ | ⟨rfl, rfl⟩ | ⟨rfl, rfl⟩ <;>
      exact (toTime_failsWith zone s).mono (by rw [kind]; decide)
  | dateTime declared =>
    rcases declared with ⟨rfl, rfl⟩ | ⟨rfl, rfl⟩ | ⟨rfl, rfl⟩ <;>
      exact (toDateTime_failsWith zone s).mono (by rw [kind]; decide)
  | localDateTime declared =>
    rcases declared with ⟨rfl, rfl⟩ | ⟨rfl, rfl⟩ | ⟨rfl, rfl⟩ <;>
      exact (toLocalDateTime_failsWith zone s).mono (by rw [kind]; decide)
  | millis declared =>
    have fails := toMillis_failsWith zone supported
    rcases declared with ⟨rfl, rfl⟩ | ⟨rfl, rfl⟩ | ⟨rfl, rfl⟩ | ⟨rfl, rfl⟩
    · exact fails.mono (by rw [kind]; decide)
    · exact fails.mono (by rw [kind]; decide)
    · exact absurd ⟨rfl, rfl⟩ apart
    · exact fails.mono (by rw [kind]; decide)

/-- The milliseconds of an instant cannot be counted only where its zone is unknown. -/
theorem toMillis_dateTime {zone : Zone} {i : OffsetDateTime} {fault : ConversionFault}
    (supported : i.utc.date.isSupported = true) (failed : toMillis zone (.scalar (.dateTime i)) = .error fault) :
    ∃ name, zone = .named name ∧ fault = .unknownZone (Text.trimmed name) := by
  unfold toMillis at failed
  cases hi : instant zone (.scalar (.dateTime i)) with
  | ok j =>
    obtain ⟨t, ht⟩ := long_toMillis (instant_isSupported (s := .dateTime i) supported hi)
    rw [hi] at failed
    exact nomatch ht.symm.trans failed
  | error fault' =>
    rw [hi] at failed
    obtain rfl : fault' = fault := Except.error.inj failed
    cases zone with
    | host clock => cases hi
    | named name =>
      refine ⟨name, rfl, ?_⟩
      unfold instant view offsetAt offsetOf at hi
      simp only at hi
      split at hi
      · cases hi
      · split at hi
        · cases hi
        · exact (Except.error.inj hi).symm

theorem unsupported_not_mem_primitiveConcerns (source target : PrimitiveKind) :
    Concern.unsupported ∉ primitiveConcerns source target := by
  unfold primitiveConcerns
  split
  · decide
  · split <;> decide
  · split <;> decide
  all_goals
    split
    · split <;> decide
    · decide

theorem unsupported_not_mem_textConcerns (target : PrimitiveKind) : Concern.unsupported ∉ textConcerns target := by
  unfold textConcerns
  split <;> decide

/-- No rule declares that there is no conversion. -/
theorem unsupported_not_mem {source target : ScalarKind} {rule : Rule} (h : rule? source target = some rule) :
    Concern.unsupported ∉ rule.concerns := by
  cases rule?_ruled h with
  | primitive => exact unsupported_not_mem_primitiveConcerns _ _
  | readPrimitive => exact unsupported_not_mem_textConcerns _
  | date declared => rcases declared with ⟨rfl, rfl⟩ | ⟨rfl, rfl⟩ | ⟨rfl, rfl⟩ <;> decide
  | time declared => rcases declared with ⟨rfl, rfl⟩ | ⟨rfl, rfl⟩ | ⟨rfl, rfl⟩ <;> decide
  | dateTime declared => rcases declared with ⟨rfl, rfl⟩ | ⟨rfl, rfl⟩ | ⟨rfl, rfl⟩ <;> decide
  | localDateTime declared => rcases declared with ⟨rfl, rfl⟩ | ⟨rfl, rfl⟩ | ⟨rfl, rfl⟩ <;> decide
  | millis declared => rcases declared with ⟨rfl, rfl⟩ | ⟨rfl, rfl⟩ | ⟨rfl, rfl⟩ | ⟨rfl, rfl⟩ <;> decide
  | _ => decide

end Conversion

namespace Graph

open Conversion

theorem ruleBetween?_eq_some {source target : FieldType} {rule : Rule}
    (h : ruleBetween? source target = some rule) :
    ∃ a b, source = .scalar a ∧ target = .scalar b ∧ rule? a b = some rule := by
  have kind : ∀ {type : FieldType} {k : ScalarKind}, type.scalarKind? = some k → type = .scalar k := by
    intro type k h
    cases type with
    | scalar k' => exact congrArg FieldType.scalar (Option.some.inj h)
    | _ => cases h
  simp only [ruleBetween?, Option.bind_eq_bind, Option.bind_eq_some_iff] at h
  obtain ⟨a, ha, b, hb, rule⟩ := h
  exact ⟨a, b, kind ha, kind hb, rule⟩

/-- What a failed conversion went through: there is no rule, or the rule of the two types fails. -/
theorem convert_error {g : Graph} {zone : Zone} {v : Value} {target : FieldType} {e : ConversionError}
    (h : g.convert zone v none target = .error e) :
    e.source = g.fieldTypeOf v ∧ e.target = target ∧ g.fieldTypeOf v ≠ target ∧ target ≠ .any ∧
      (ruleBetween? (g.fieldTypeOf v) target = none ∧ e.fault = .noRule (g.fieldTypeOf v) target ∨
        ∃ rule, ruleBetween? (g.fieldTypeOf v) target = some rule ∧ rule.run g zone v = .error e.fault) := by
  unfold convert at h
  split at h
  · cases h
  simp only [Option.filter_none, Option.getD_none] at h
  split at h
  · cases h
  · next distinct =>
    obtain ⟨notSame, -, notAny⟩ : g.fieldTypeOf v ≠ target ∧ g.fieldTypeOf v ≠ target ∧ target ≠ .any := by
      simpa only [not_or] using distinct
    split at h
    · next none' =>
      obtain rfl := Except.error.inj h
      exact ⟨rfl, rfl, notSame, notAny, .inl ⟨none', rfl⟩⟩
    · next rule some' =>
      split at h
      · cases h
      · next fault failed =>
        obtain rfl := Except.error.inj h
        exact ⟨rfl, rfl, notSame, notAny, .inr ⟨rule, some', failed⟩⟩

/-- A conversion fails with a concern that is declared for its pair of types.  Only where an instant becomes an
integer an unknown zone is a failure that is not declared.  There is a conversion where one is declared. -/
theorem convert_error_declared {g : Graph} {zone : Zone} {v : Value} {target : FieldType}
    {e : ConversionError} (supported : ∀ s, v = .scalar s → s.isSupported = true)
    (failed : g.convert zone v none target = .error e) :
    e.source = g.fieldTypeOf v ∧ e.target = target ∧
      (e.fault.concern ∈ concerns (g.fieldTypeOf v) target ∨
        g.fieldTypeOf v = .scalar .dateTime ∧ target = .scalar (.primitive (.integer .long)) ∧
          ∃ name, zone = .named name ∧ e.fault = .unknownZone (Text.trimmed name)) ∧
      (supports (g.fieldTypeOf v) target = true → e.fault.concern ≠ .unsupported) := by
  obtain ⟨source, target', notSame, notAny, cause⟩ := convert_error failed
  refine ⟨source, target', ?_⟩
  have declared : concerns (g.fieldTypeOf v) target =
      ((ruleBetween? (g.fieldTypeOf v) target).map (·.concerns)).getD [.unsupported] := by
    simp [concerns, notSame, notAny]
  rcases cause with ⟨none', fault⟩ | ⟨rule, some', fault⟩
  · refine ⟨.inl ?_, fun supports' => ?_⟩
    · rw [declared, none', fault]
      exact List.mem_singleton_self _
    · simp [supports, notSame, notAny, none'] at supports'
  · obtain ⟨a, b, ha, rfl, hrule⟩ := ruleBetween?_eq_some some'
    obtain ⟨s, rfl, kind⟩ := eq_scalar_of_fieldTypeOf ha
    have dates := supported s rfl
    rw [declared, some']
    by_cases counted : a = .dateTime ∧ b = .primitive (.integer .long)
    · obtain ⟨rfl, rfl⟩ := counted
      obtain rfl : (⟨[.loss], fun _ => toMillis⟩ : Rule) = rule := Option.some.inj hrule
      obtain ⟨i, rfl⟩ : ∃ i, s = .dateTime i := by
        cases s with
        | dateTime i => exact ⟨i, rfl⟩
        | _ => cases kind
      obtain ⟨name, zone', fault'⟩ := toMillis_dateTime dates fault
      exact ⟨.inr ⟨rfl, rfl, name, zone', fault'⟩, fun _ => by rw [fault']; exact nofun⟩
    · have concern := rule?_failsWith hrule g zone kind dates counted e.fault fault
      exact ⟨.inl concern, fun _ unsupported => unsupported_not_mem hrule (unsupported ▸ concern)⟩

theorem convert_error_declared_byte :
    ∃ e, empty.convert .utc (.scalar (.integer .int ⟨300, by decide⟩)) none
        (.scalar (.primitive (.integer .byte))) = .error e ∧
      e.fault.concern = .range ∧
      e.fault.concern ∈ concerns (.scalar (.primitive (.integer .int))) (.scalar (.primitive (.integer .byte))) := by
  obtain ⟨e, failed, range⟩ : ∃ e, empty.convert .utc (.scalar (.integer .int ⟨300, by decide⟩)) none
      (.scalar (.primitive (.integer .byte))) = .error e ∧ e.fault.concern = .range := ⟨_, rfl, rfl⟩
  have supported : ∀ s, (.scalar (.integer .int ⟨300, by decide⟩) : Value) = .scalar s → s.isSupported = true := by
    rintro _ ⟨⟩
    rfl
  have declared := (convert_error_declared supported failed).2.2.1
  exact ⟨e, failed, range, declared.resolve_right fun instant => nomatch instant.1⟩

/-- An instant cannot become an integer in a zone that nobody knows, and only loss is declared. -/
theorem convert_error_undeclared :
    ∃ e, empty.convert (some "nowhere") (.scalar (.dateTime ⟨.ofDate .epoch, .utc⟩)) none
        (.scalar (.primitive (.integer .long))) = .error e ∧
      e.fault.concern = .timezone ∧
      concerns (.scalar .dateTime) (.scalar (.primitive (.integer .long))) = [.loss] := by
  refine ⟨⟨.scalar .dateTime, .scalar (.primitive (.integer .long)), .unknownZone "nowhere"⟩, ?_, rfl, rfl⟩
  cbv

end Graph

end FieldBinding
