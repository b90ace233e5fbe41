import Mathlib
import FieldBinding.Proofs.Calendar.Written
import FieldBinding.Proofs.Conversion.Concerns
import FieldBinding.Proofs.Numeral.Shortest

/-!
# What is lost is declared

A conversion for which no loss is declared keeps different values different.  Numbers go where there is room for all
their digits, the texts of numbers, dates and times determine them, and clocks that are never set back show different
readings at different instants.

Four things are lost although nothing is declared: what a time of day has beyond its milliseconds when it becomes an
integer, the time of day when an integer becomes a date, in texts the seconds of an offset and the place of a leap
second inside its minute, and the hour that the clocks of a host show twice when an integer becomes a date-time.

Main results:

* `Scalar.text_inj` — regular scalars of one kind with the same text are the same.
* `Conversion.rule?_apart` — a rule without loss keeps scalars apart.
* `Graph.convert_apart` — different values stay different where no loss is declared.
-/

namespace FieldBinding

theorem Bounded.eq_of_toInt {kind : IntegerKind} {i j : Bounded kind} (h : i.toInt = j.toInt) : i = j := by
  cases i
  cases j
  cases h
  rfl

namespace Scalar

/-! ## Scalars of one kind -/

/-- Two scalars of one kind. -/
inductive Alike : Scalar → Scalar → Prop where
  | bool (b c : Bool) : Alike (.bool b) (.bool c)
  | char (c d : Char) : Alike (.char c) (.char d)
  | integer {width : IntegerKind} (i j : Bounded width) : Alike (.integer width i) (.integer width j)
  | float (x y : Numeral.Single) : Alike (.float x) (.float y)
  | double (x y : Numeral.Double) : Alike (.double x) (.double y)
  | string (s t : String) : Alike (.string s) (.string t)
  | date (d e : Date) : Alike (.date d) (.date e)
  | time (t u : TimeOfDay) : Alike (.time t) (.time u)
  | dateTime (i j : OffsetDateTime) : Alike (.dateTime i) (.dateTime j)
  | localDateTime (l m : LocalDateTime) : Alike (.localDateTime l) (.localDateTime m)

theorem alike_of_kind {s t : Scalar} (h : s.kind = t.kind) : Alike s t := by
  cases s <;> cases t <;> first
    | (simp only [kind, ScalarKind.primitive.injEq, PrimitiveKind.integer.injEq, reduceCtorEq] at h; done)
    | constructor
    | (cases h; constructor)

/-- Whether a scalar is a floating-point value that is not a number. -/
def isNaN : Scalar → Bool
  | float x => x.isNaN
  | double x => x.isNaN
  | _ => false

/-- Whether a leap second stands at the end of its minute and an offset has whole minutes. -/
def isRegular : Scalar → Bool
  | time t => t.isRegular
  | localDateTime l => l.time.isRegular
  | dateTime i => i.isRegular
  | _ => true

/-- Everything but what is not a number equals itself. -/
theorem equal_self {s : Scalar} (number : s.isNaN = false) : s.equal s = true := by
  cases s <;> simp_all [equal, isNaN, Numeral.Binary.equal]

/-- Only floating-point numbers and instants are equal as values without being the same. -/
theorem eq_of_equal {a b : Scalar} (h : a.equal b = true) (notFloat : a.kind ≠ .primitive .float)
    (notDouble : a.kind ≠ .primitive .double) (notInstant : a.kind ≠ .dateTime) : a = b := by
  cases a with
  | float x => exact absurd rfl notFloat
  | double x => exact absurd rfl notDouble
  | dateTime i => exact absurd rfl notInstant
  | _ => exact of_decide_eq_true h

/-- Regular scalars of one kind with the same text are the same. -/
theorem text_inj {s t : Scalar} (alike : s.kind = t.kind) (number : s.isNaN = false) (number' : t.isNaN = false)
    (regular : s.isRegular = true) (regular' : t.isRegular = true) (h : s.text = t.text) : s = t := by
  cases alike_of_kind alike with
  | bool b c => cases b <;> cases c <;> first | rfl | exact absurd h (by decide)
  | char c d =>
    have chars := congrArg String.toList h
    simp only [text, Char.toString, String.toList_singleton, List.cons.injEq, and_true] at chars
    rw [chars]
  | integer i j => rw [Bounded.eq_of_toInt (Numeral.signedText_inj h)]
  | float x y => rw [Numeral.Binary.text_inj (by decide) number number' h]
  | double x y => rw [Numeral.Binary.text_inj (by decide) number number' h]
  | string s t => exact congrArg Scalar.string h
  | date d e => rw [Date.chars_inj (String.ofList_injective h)]
  | time t u => rw [TimeOfDay.chars_inj regular regular' (String.ofList_injective h)]
  | dateTime i j => rw [OffsetDateTime.chars_inj regular regular' (String.ofList_injective h)]
  | localDateTime l m => rw [LocalDateTime.charsWith_inj regular regular' (String.ofList_injective h)]

end Scalar

namespace Conversion

/-! ## Keeping apart -/

/-- Whether two scalars stay apart in what becomes of them: they are the same if the results are, and they are equal
if the results are. -/
structure Apart (s t a b : Scalar) : Prop where
  same : a = b → s = t
  equal : a.equal b = true → s.equal t = true

/-- Where the results are equal only if they are the same nothing has to be said about equality. -/
theorem Apart.of_strict {s t a b : Scalar} (number : s.isNaN = false) (strict : a.equal b = true → a = b)
    (same : a = b → s = t) : Apart s t a b :=
  ⟨same, fun h => same (strict h) ▸ Scalar.equal_self number⟩

/-! ## Numbers -/

/-- Primitives of one kind that stand for the same number are the same. -/
theorem number_inj {s t : Scalar} {n : Number} (alike : s.kind = t.kind) (number' : s.isNaN = false)
    (number'' : t.isNaN = false) (hs : number (.scalar s) = .ok n) (ht : number (.scalar t) = .ok n) : s = t := by
  have same := hs.trans ht.symm
  cases Scalar.alike_of_kind alike with
  | bool b c => cases b <;> cases c <;> first | rfl | exact absurd same (by decide)
  | char c d =>
    simp only [number, Except.ok.injEq, Number.whole.injEq, Int.natCast_inj] at same
    rw [Char.toNat_inj.1 same]
  | integer i j =>
    simp only [number, Except.ok.injEq, Number.whole.injEq] at same
    rw [Bounded.eq_of_toInt same]
  | float x y =>
    simp only [number, Except.ok.injEq, Number.floating.injEq] at same
    rw [Numeral.Binary.convert_inj number' number'' same]
  | double x y =>
    cases same
    rfl
  | _ => cases hs

/-- What is cut down to a range is a whole number of the range already, or is refused. -/
theorem wholeIn_eq_ok {i j least greatest : Int} {target : PrimitiveKind}
    (h : wholeIn (.whole i) target least greatest = .ok j) : j = i ∧ least ≤ i ∧ i ≤ greatest := by
  unfold wholeIn at h
  simp only at h
  split at h
  · next k hk =>
    obtain rfl := Except.ok.inj h
    obtain ⟨same, fits⟩ := Option.filter_eq_some_iff.1 hk
    obtain rfl := Option.some.inj same
    exact ⟨rfl, of_decide_eq_true fits⟩
  · cases h

theorem toNat_ofNat {code : Nat} (valid : code.isValidChar) : (Char.ofNat code).toNat = code := by
  simp [Char.ofNat, valid, Char.toNat, Char.ofNatAux]

/-- A whole number goes unchanged into a kind of whole numbers. -/
theorem number_ofNumber {target : PrimitiveKind} {i : Int} {a : Scalar}
    (whole : target = .char ∨ ∃ kind, target = .integer kind) (h : ofNumber target (.whole i) = .ok a) :
    number (.scalar a) = .ok (.whole i) := by
  rcases whole with rfl | ⟨kind, rfl⟩
  · cases hj : wholeIn (.whole i) .char 0 0xFFFF with
    | error fault =>
      simp only [ofNumber, hj] at h
      cases h
    | ok j =>
      obtain ⟨rfl, fits⟩ := wholeIn_eq_ok hj
      simp only [ofNumber, hj] at h
      change charOf j.toNat = .ok a at h
      unfold charOf at h
      split at h
      · cases h
      · next plain =>
        obtain rfl := Except.ok.inj h
        have valid : j.toNat.isValidChar := by
          simp only [Nat.isValidChar]
          omega
        simp only [number, toNat_ofNat valid, Int.toNat_of_nonneg fits.1]
  · cases hj : wholeIn (.whole i) (.integer kind) kind.least kind.greatest with
    | error fault =>
      simp only [ofNumber, hj] at h
      cases h
    | ok j =>
      obtain ⟨rfl, fits⟩ := wholeIn_eq_ok hj
      rw [ofNumber_integer fits] at h
      cases h
      rfl

/-- Where no loss is declared for a kind of whole numbers the source is one too. -/
theorem whole_of_loss_not_mem {source target : PrimitiveKind} {n : Number} (value : ValueOf n source)
    (whole : target = .char ∨ ∃ kind, target = .integer kind)
    (lossless : Concern.loss ∉ primitiveConcerns source target) : ∃ i, n = .whole i := by
  cases source with
  | boolean => exact value.imp fun _ h => h.1
  | char => exact value.imp fun _ h => h.1
  | integer kind => exact value.imp fun _ h => h.1
  | float =>
    have declared : primitiveConcerns .float target = [.range, .loss] := by
      rcases whole with rfl | ⟨kind, rfl⟩ <;> rfl
    simp [declared] at lossless
  | double =>
    have declared : primitiveConcerns .double target = [.range, .loss] := by
      rcases whole with rfl | ⟨kind, rfl⟩ <;> rfl
    simp [declared] at lossless

/-- Where no loss is declared for numbers of 32 bits the source is a whole number with at most 24 bits. -/
theorem small_of_float_lossless {source : PrimitiveKind} {n : Number} (value : ValueOf n source)
    (apart : source ≠ .float) (lossless : Concern.loss ∉ primitiveConcerns source .float) :
    ∃ i, n = .whole i ∧ i.natAbs < 2 * 2 ^ Numeral.single.fractionBits := by
  have bits : 2 * 2 ^ Numeral.single.fractionBits = 16777216 := rfl
  rw [bits]
  cases source with
  | boolean => exact value.imp fun _ h => ⟨h.1, by omega⟩
  | char => exact value.imp fun _ h => ⟨h.1, by omega⟩
  | integer kind =>
    obtain ⟨i, rfl, low, high⟩ := value
    refine ⟨i, rfl, ?_⟩
    cases kind <;> first
      | exact absurd (by decide) lossless
      | simp only [IntegerKind.least, IntegerKind.greatest, IntegerKind.bits] at low high; omega
  | float => exact absurd rfl apart
  | double => exact absurd (by decide) lossless

/-- Where no loss is declared for numbers of 64 bits the source is a whole number with at most 53 bits or is a
floating-point number. -/
theorem small_of_double_lossless {source : PrimitiveKind} {n : Number} (value : ValueOf n source)
    (apart : source ≠ .double) (lossless : Concern.loss ∉ primitiveConcerns source .double) :
    source = .float ∨ ∃ i, n = .whole i ∧ i.natAbs < 2 * 2 ^ Numeral.double.fractionBits := by
  have bits : 2 * 2 ^ Numeral.double.fractionBits = 9007199254740992 := rfl
  rw [bits]
  cases source with
  | boolean => exact .inr (value.imp fun _ h => ⟨h.1, by omega⟩)
  | char => exact .inr (value.imp fun _ h => ⟨h.1, by omega⟩)
  | integer kind =>
    obtain ⟨i, rfl, low, high⟩ := value
    refine .inr ⟨i, rfl, ?_⟩
    cases kind <;> first
      | exact absurd (by decide) lossless
      | simp only [IntegerKind.least, IntegerKind.greatest, IntegerKind.bits] at low high; omega
  | float => exact .inl rfl
  | double => exact absurd rfl apart

section Primitives

variable {s t a b : Scalar} {source target : PrimitiveKind}

/-- A conversion of numbers without loss to a kind of whole numbers keeps them apart. -/
theorem ofNumber_apart {n m : Number} (whole : target = .char ∨ ∃ kind, target = .integer kind)
    (value : ValueOf n source) (value' : ValueOf m source) (same : n = m → s = t) (number' : s.isNaN = false)
    (lossless : Concern.loss ∉ primitiveConcerns source target) (ha : ofNumber target n = .ok a)
    (hb : ofNumber target m = .ok b) : Apart s t a b := by
  have kinds := ofNumber_lands target n a ha
  obtain ⟨i, rfl⟩ := whole_of_loss_not_mem value whole lossless
  obtain ⟨j, rfl⟩ := whole_of_loss_not_mem value' whole lossless
  refine .of_strict number' (fun h => Scalar.eq_of_equal h ?_ ?_ ?_) fun h => same ?_
  · rw [kinds]
    rcases whole with rfl | ⟨kind, rfl⟩ <;> exact nofun
  · rw [kinds]
    rcases whole with rfl | ⟨kind, rfl⟩ <;> exact nofun
  · rw [kinds]
    exact nofun
  · have read := number_ofNumber whole ha
    rw [h, number_ofNumber whole hb] at read
    exact (Except.ok.inj read).symm

/-- A conversion between primitives without loss keeps them apart. -/
theorem toPrimitive_apart (hs : s.kind = .primitive source) (ht : t.kind = .primitive source)
    (apart : source ≠ target) (lossless : Concern.loss ∉ primitiveConcerns source target)
    (number' : s.isNaN = false) (number'' : t.isNaN = false)
    (ha : toPrimitive target (.scalar s) = .ok a) (hb : toPrimitive target (.scalar t) = .ok b) : Apart s t a b := by
  have alike := hs.trans ht.symm
  obtain ⟨n, hn, ha⟩ := bind_eq_ok ha
  obtain ⟨m, hm, hb⟩ := bind_eq_ok hb
  have value : ValueOf n source := by
    obtain ⟨n', hn', value⟩ := number_scalar hs
    cases hn.symm.trans hn'
    exact value
  have value' : ValueOf m source := by
    obtain ⟨m', hm', value⟩ := number_scalar ht
    cases hm.symm.trans hm'
    exact value
  have same : n = m → s = t := by
    rintro rfl
    exact number_inj alike number' number'' hn hm
  cases target with
  | boolean => exact absurd (List.mem_singleton_self _) lossless
  | char => exact ofNumber_apart (.inl rfl) value value' same number' lossless ha hb
  | integer kind => exact ofNumber_apart (.inr ⟨kind, rfl⟩) value value' same number' lossless ha hb
  | float =>
    obtain ⟨i, rfl, small⟩ := small_of_float_lossless value apart lossless
    obtain ⟨j, rfl, small'⟩ := small_of_float_lossless value' apart lossless
    cases ha
    cases hb
    have least : Numeral.single.leastExponent + (149 : Nat) = 0 := rfl
    refine .of_strict number' (fun h => ?_) fun h => same (congrArg _ ?_)
    · exact congrArg _ (Numeral.Binary.ofInt_eq_of_equal (by decide) least (by decide) small small' h)
    · exact Numeral.Binary.ofInt_inj (by decide) least (by decide) small small' (Scalar.float.inj h)
  | double =>
    rcases small_of_double_lossless value apart lossless with rfl | ⟨i, rfl, small⟩
    · cases Scalar.alike_of_kind alike with
      | float x y =>
        cases hn
        cases hm
        cases ha
        cases hb
        exact ⟨fun h => congrArg _ (Numeral.Binary.convert_inj number' number'' (Scalar.double.inj h)),
          Numeral.Binary.equal_of_convert_equal number' number''⟩
      | _ => cases hs
    · obtain rfl | ⟨j, rfl, small'⟩ := small_of_double_lossless value' apart lossless
      · obtain ⟨x, ⟨⟩⟩ := value
      cases ha
      cases hb
      have least : Numeral.double.leastExponent + (1074 : Nat) = 0 := rfl
      refine .of_strict number' (fun h => ?_) fun h => same (congrArg _ ?_)
      · exact congrArg _ (Numeral.Binary.ofInt_eq_of_equal (by decide) least (by decide) small small' h)
      · exact Numeral.Binary.ofInt_inj (by decide) least (by decide) small small' (Scalar.double.inj h)

end Primitives

/-! ## Dates and times -/

/-- The instant of an integer has its milliseconds, and the offset of the zone at that instant. -/
theorem instant_long {zone : Zone} {n : Bounded .long} {i : OffsetDateTime}
    (h : instant zone (.scalar (.integer .long n)) = .ok i) :
    offsetAt zone i.utc = .ok i.offset ∧ i.utc.toSeconds = n.toInt / 1000 ∧
      (i.utc.time.nanos : Int) = n.toInt % 1000 * 1000000 := by
  unfold instant OffsetDateTime.ofMillis? at h
  simp only at h
  split at h
  · cases h
  · next j hj =>
    obtain ⟨utc, shown⟩ := view_eq_ok h
    rw [utc]
    split at hj
    · obtain rfl := Option.some.inj hj
      refine ⟨shown, LocalDateTime.toSeconds_ofSeconds _ _ _, ?_⟩
      simp only [LocalDateTime.ofSeconds]
      omega
    · cases hj

theorem ofDate_inj {d e : Date} (h : LocalDateTime.ofDate d = LocalDateTime.ofDate e) : d = e :=
  congrArg LocalDateTime.date h

/-- The clocks of a zone show one date and time at an instant. -/
theorem attach_inj {zone : Zone} {l m : LocalDateTime} {i j : OffsetDateTime} (hl : attach zone l = .ok i)
    (hm : attach zone m = .ok j) (same : i.utc = j.utc) : i.offset = j.offset ∧ l = m := by
  obtain ⟨utc, shown, -⟩ := attach_eq_ok hl
  obtain ⟨utc', shown', -⟩ := attach_eq_ok hm
  have offset : i.offset = j.offset := Except.ok.inj (shown.symm.trans (same ▸ shown'))
  exact ⟨offset, LocalDateTime.later_inj (by rw [← utc, same, utc', offset])⟩

/-- A date, a date-time and an integer are known by their instants in a zone, and so is the offset. -/
theorem instant_inj {zone : Zone} {s t : Scalar} {i j : OffsetDateTime} (alike : s.kind = t.kind)
    (moved : s.kind ≠ .dateTime) (hs : instant zone (.scalar s) = .ok i) (ht : instant zone (.scalar t) = .ok j)
    (same : i.utc = j.utc) : i.offset = j.offset ∧ s = t := by
  cases Scalar.alike_of_kind alike with
  | date d e => exact (attach_inj hs ht same).imp_right fun h => congrArg _ (ofDate_inj h)
  | localDateTime l m => exact (attach_inj hs ht same).imp_right (congrArg _)
  | @integer width n m =>
    cases width with
    | long =>
      obtain ⟨shown, seconds, nanos⟩ := instant_long hs
      obtain ⟨shown', seconds', nanos'⟩ := instant_long ht
      rw [same] at shown seconds nanos
      refine ⟨Except.ok.inj (shown.symm.trans shown'), ?_⟩
      rw [Bounded.eq_of_toInt (by omega : n.toInt = m.toInt)]
    | _ => cases hs
  | dateTime i j => exact absurd rfl moved
  | _ => cases hs

/-- Whether the clocks of a zone show no date and time at two instants. -/
def NeverSetBack (zone : Zone) : Prop :=
  ∀ i j : OffsetDateTime, offsetAt zone i.utc = .ok i.offset → offsetAt zone j.utc = .ok j.offset →
    i.toLocal = j.toLocal → i.utc = j.utc

/-- The clocks of a zone with a name are never set back. -/
theorem neverSetBack_named (name : String) : NeverSetBack (.named name) := by
  intro i j shown shown' readings
  have offset : i.offset = j.offset := Except.ok.inj (shown.symm.trans shown')
  rw [OffsetDateTime.toLocal, OffsetDateTime.toLocal, offset] at readings
  exact LocalDateTime.later_inj readings

/-- A date, a date-time and an integer are known by their readings in a zone; an integer only if the clocks are not
set back. -/
theorem reading_inj {zone : Zone} {s t : Scalar} {l : LocalDateTime} (alike : s.kind = t.kind)
    (moved : s.kind ≠ .dateTime) (once : s.kind = .primitive (.integer .long) → NeverSetBack zone)
    (hs : reading zone (.scalar s) = .ok l) (ht : reading zone (.scalar t) = .ok l) : s = t := by
  cases Scalar.alike_of_kind alike with
  | date d e => exact congrArg _ (ofDate_inj (Except.ok.inj (hs.trans ht.symm)))
  | localDateTime l m => exact congrArg _ (Except.ok.inj (hs.trans ht.symm))
  | @integer width n m =>
    obtain ⟨i, hi, shown⟩ := bind_eq_ok hs
    obtain ⟨j, hj, shown'⟩ := bind_eq_ok ht
    cases width with
    | long =>
      have readings : i.toLocal = j.toLocal := Except.ok.inj (shown.trans shown'.symm)
      have same := once rfl i j (instant_long hi).1 (instant_long hj).1 readings
      exact (instant_inj alike moved hi hj same).2
    | _ => cases hi
  | dateTime i j => exact absurd rfl moved
  | _ => cases hs

section Temporal

variable {zone : Zone} {s t a b : Scalar}

theorem toDateTime_apart (alike : s.kind = t.kind) (moved : s.kind ≠ .dateTime) (number' : s.isNaN = false)
    (ha : toDateTime zone (.scalar s) = .ok a) (hb : toDateTime zone (.scalar t) = .ok b) : Apart s t a b := by
  obtain ⟨i, hs, ha⟩ := bind_eq_ok ha
  obtain ⟨j, ht, hb⟩ := bind_eq_ok hb
  cases ha
  cases hb
  have inj := instant_inj alike moved hs ht
  refine .of_strict number' (fun h => ?_) fun h => (inj (congrArg _ (Scalar.dateTime.inj h))).2
  -- the same instant has the same offset in a zone
  exact congrArg _ (OffsetDateTime.eq_of_fields (of_decide_eq_true h) (inj (of_decide_eq_true h)).1)

theorem toLocalDateTime_apart (alike : s.kind = t.kind) (moved : s.kind ≠ .dateTime) (number' : s.isNaN = false)
    (once : s.kind = .primitive (.integer .long) → NeverSetBack zone)
    (ha : toLocalDateTime zone (.scalar s) = .ok a) (hb : toLocalDateTime zone (.scalar t) = .ok b) :
    Apart s t a b := by
  obtain ⟨l, hs, ha⟩ := bind_eq_ok ha
  obtain ⟨m, ht, hb⟩ := bind_eq_ok hb
  cases ha
  cases hb
  refine .of_strict number' (fun h => of_decide_eq_true h) fun h => ?_
  cases h
  exact reading_inj alike moved once hs ht

theorem long_eq_ok {i : Int} (h : long i = .ok a) : ∃ n : Bounded .long, a = .integer .long n ∧ n.toInt = i := by
  unfold long Bounded.of? at h
  by_cases fits : IntegerKind.long.least ≤ i ∧ i ≤ IntegerKind.long.greatest
  · simp only [fits, and_self, dif_pos] at h
    exact ⟨_, (Except.ok.inj h).symm, rfl⟩
  · simp only [fits, dif_neg, not_false_eq_true] at h
    cases h

/-- The midnights of different days are not at the same millisecond. -/
theorem toMillis_date_apart {d e : Date} (ha : toMillis zone (.scalar (.date d)) = .ok a)
    (hb : toMillis zone (.scalar (.date e)) = .ok b) : Apart (.date d) (.date e) a b := by
  obtain ⟨i, hi, ha⟩ := bind_eq_ok ha
  obtain ⟨j, hj, hb⟩ := bind_eq_ok hb
  obtain ⟨n, rfl, hn⟩ := long_eq_ok ha
  obtain ⟨m, rfl, hm⟩ := long_eq_ok hb
  refine .of_strict rfl (fun h => of_decide_eq_true h) fun h => ?_
  cases h
  refine (instant_inj (s := .date d) (t := .date e) rfl nofun hi hj ?_).2
  have midnight : ∀ {d : Date} {i : OffsetDateTime}, attach zone (.ofDate d) = .ok i → i.utc.time.nanos = 0 :=
    fun h => by rw [(attach_eq_ok h).1]; rfl
  have millis := hn.symm.trans hm
  simp only [OffsetDateTime.toMillis, midnight hi, midnight hj] at millis
  exact LocalDateTime.toSeconds_inj (by omega) ((midnight hi).trans (midnight hj).symm)

/-- Different milliseconds of a day are different times. -/
theorem toTime_long_apart (zone : Zone) {n m : Bounded .long}
    (ha : toTime zone (.scalar (.integer .long n)) = .ok a) (hb : toTime zone (.scalar (.integer .long m)) = .ok b) :
    Apart (.integer .long n) (.integer .long m) a b := by
  have read : ∀ {k : Bounded .long} {c : Scalar}, toTime zone (.scalar (.integer .long k)) = .ok c →
      ∃ t : TimeOfDay, c = .time t ∧ 1000 * (t.seconds : Int) + t.nanos / 1000000 = k.toInt := by
    intro k c h
    unfold toTime TimeOfDay.ofMillis? at h
    simp only at h
    split at h
    · next t ht =>
      split at ht
      · cases ht
        cases h
        refine ⟨_, rfl, ?_⟩
        simp only
        omega
      · cases ht
    · cases h
  obtain ⟨t, rfl, ht⟩ := read ha
  obtain ⟨u, rfl, hu⟩ := read hb
  refine .of_strict rfl (fun h => of_decide_eq_true h) fun h => ?_
  cases h
  rw [Bounded.eq_of_toInt (ht.symm.trans hu)]

end Temporal

/-! ## Rules -/

/-- A rule for which no loss is declared keeps scalars apart. -/
theorem rule?_apart {source target : ScalarKind} {rule : Rule} (h : rule? source target = some rule)
    (lossless : Concern.loss ∉ rule.concerns) (written : source ≠ .string)
    (counted : ¬ (source = .time ∧ target = .primitive (.integer .long)))
    (dated : ¬ (source = .primitive (.integer .long) ∧ target = .date)) {g : Graph} {zone : Zone}
    (once : source = .primitive (.integer .long) ∧ target = .localDateTime → NeverSetBack zone)
    {s t a b : Scalar} (hs : s.kind = source) (ht : t.kind = source) (number' : s.isNaN = false)
    (number'' : t.isNaN = false) (regular : target = .string → s.isRegular = true ∧ t.isRegular = true)
    (ha : rule.run g zone (.scalar s) = .ok a) (hb : rule.run g zone (.scalar t) = .ok b) : Apart s t a b := by
  have alike := hs.trans ht.symm
  cases rule?_ruled h with
  | primitive different => exact toPrimitive_apart hs ht different lossless number' number'' ha hb
  | text =>
    -- the text of a scalar is the same in every graph
    cases ha
    cases hb
    obtain ⟨regular', regular''⟩ := regular rfl
    refine .of_strict number' (fun h => of_decide_eq_true h) fun h => ?_
    have texts := Scalar.string.inj h
    rw [Graph.text_scalar, Graph.text_scalar] at texts
    exact Scalar.text_inj alike number' number'' regular' regular'' texts
  | date declared =>
    rcases declared with ⟨rfl, rfl⟩ | ⟨rfl, rfl⟩ | ⟨rfl, rfl⟩
    · exact absurd (by decide) lossless
    · exact absurd (by decide) lossless
    · exact absurd ⟨rfl, rfl⟩ dated
  | time declared =>
    rcases declared with ⟨rfl, rfl⟩ | ⟨rfl, rfl⟩ | ⟨rfl, rfl⟩
    · exact absurd (by decide) lossless
    · exact absurd (by decide) lossless
    cases Scalar.alike_of_kind alike with
    | @integer width n m =>
      cases width with
      | long => exact toTime_long_apart zone ha hb
      | _ => cases hs
    | _ => cases hs
  | dateTime declared =>
    rcases declared with ⟨rfl, rfl⟩ | ⟨rfl, rfl⟩ | ⟨rfl, rfl⟩ <;>
      exact toDateTime_apart alike (hs ▸ nofun) number' ha hb
  | localDateTime declared =>
    rcases declared with ⟨rfl, rfl⟩ | ⟨rfl, rfl⟩ | ⟨rfl, rfl⟩
    · exact toLocalDateTime_apart alike (hs ▸ nofun) number' (hs ▸ nofun) ha hb
    · exact absurd (by decide) lossless
    · exact toLocalDateTime_apart alike (hs ▸ nofun) number' (fun _ => once ⟨rfl, rfl⟩) ha hb
  | millis declared =>
    rcases declared with ⟨rfl, rfl⟩ | ⟨rfl, rfl⟩ | ⟨rfl, rfl⟩ | ⟨rfl, rfl⟩
    · cases Scalar.alike_of_kind alike with
      | date d e => exact toMillis_date_apart ha hb
      | _ => cases hs
    · exact absurd ⟨rfl, rfl⟩ counted
    · exact absurd (by decide) lossless
    · exact absurd (by decide) lossless
  -- what is left is read from a text
  | _ => exact absurd rfl written

end Conversion

namespace Graph

open Conversion

/-- What a conversion to another type went through: the rule of the two types. -/
theorem convert_eq_ok {g : Graph} {zone : Zone} {v u : Value} {target : FieldType} {rule : Rule}
    (h : g.convert zone v none target = .ok u) (unlike : g.fieldTypeOf v ≠ target) (notAny : target ≠ .any)
    (between : ruleBetween? (g.fieldTypeOf v) target = some rule) :
    ∃ s a, v = .scalar s ∧ u = .scalar a ∧ rule.run g zone (.scalar s) = .ok a := by
  obtain ⟨source, -, hsource, -, -⟩ := ruleBetween?_eq_some between
  obtain ⟨s, rfl, -⟩ := eq_scalar_of_fieldTypeOf hsource
  unfold convert at h
  simp only [Value.isNull, Bool.false_eq_true, if_false, Option.filter_none, Option.getD_none, unlike, notAny, or_self,
    between] at h
  split at h
  · next a ha => exact ⟨s, a, rfl, (Except.ok.inj h).symm, ha⟩
  · cases h

/-- Where no loss is declared different values stay different: they become different scalars, and scalars that are
not equal as values become such.  The values have to be numbers if they are floating-point ones; texts show regular
values only; two pairs of types lose something that is not declared; and an integer becomes a date-time in a zone
whose clocks are not set back. -/
theorem convert_apart {g : Graph} {zone : Zone} {v w u u' : Value} {target : FieldType}
    (supported : supports (g.fieldTypeOf v) target = true) (alike : g.fieldTypeOf w = g.fieldTypeOf v)
    (written : g.fieldTypeOf v ≠ .scalar .string) (unlike : g.fieldTypeOf v ≠ target) (notAny : target ≠ .any)
    (lossless : Concern.loss ∉ concerns (g.fieldTypeOf v) target)
    (counted : ¬ (g.fieldTypeOf v = .scalar .time ∧ target = .scalar (.primitive (.integer .long))))
    (dated : ¬ (g.fieldTypeOf v = .scalar (.primitive (.integer .long)) ∧ target = .scalar .date))
    (once : g.fieldTypeOf v = .scalar (.primitive (.integer .long)) ∧ target = .scalar .localDateTime →
      NeverSetBack zone)
    (shown : ∀ s, .scalar s = v ∨ .scalar s = w → s.isNaN = false ∧ (target = .scalar .string → s.isRegular = true))
    (hv : g.convert zone v none target = .ok u) (hw : g.convert zone w none target = .ok u') :
    ∃ s t a b, v = .scalar s ∧ w = .scalar t ∧ u = .scalar a ∧ u' = .scalar b ∧
      (s ≠ t → a ≠ b) ∧ (s.equal t = false → a.equal b = false) := by
  obtain ⟨rule, between⟩ : ∃ rule, ruleBetween? (g.fieldTypeOf v) target = some rule := by
    simpa [supports, unlike, notAny, Option.isSome_iff_exists] using supported
  obtain ⟨s, a, rfl, rfl, ha⟩ := convert_eq_ok hv unlike notAny between
  obtain ⟨t, b, rfl, rfl, hb⟩ := convert_eq_ok hw (alike ▸ unlike) notAny (alike.symm ▸ between)
  obtain ⟨source, target, hsource, rfl, found⟩ := ruleBetween?_eq_some between
  have kind : s.kind = source := FieldType.scalar.inj hsource
  have kind' : t.kind = source := FieldType.scalar.inj (alike.trans hsource)
  have declared : Concern.loss ∉ rule.concerns := by
    simpa [concerns, unlike, between] using lossless
  obtain ⟨number, regular⟩ := shown s (.inl rfl)
  obtain ⟨number', regular'⟩ := shown t (.inr rfl)
  rw [hsource] at written counted dated once
  have apart := rule?_apart found declared (fun h => written (congrArg _ h))
    (fun h => counted ⟨congrArg _ h.1, congrArg _ h.2⟩) (fun h => dated ⟨congrArg _ h.1, congrArg _ h.2⟩)
    (fun h => once ⟨congrArg _ h.1, congrArg _ h.2⟩) kind kind'
    number number' (fun h => ⟨regular (congrArg _ h), regular' (congrArg _ h)⟩) ha hb
  refine ⟨s, t, a, b, rfl, rfl, rfl, rfl, fun different same => different (apart.same same), fun different => ?_⟩
  exact Bool.eq_false_iff.2 fun equal => Bool.eq_false_iff.1 different (apart.equal equal)

theorem convert_apart_double :
    ∃ a b, empty.convert .utc (.scalar (.integer .int ⟨16777216, by decide⟩)) none
        (.scalar (.primitive .double)) = .ok (.scalar a) ∧
      empty.convert .utc (.scalar (.integer .int ⟨16777217, by decide⟩)) none
        (.scalar (.primitive .double)) = .ok (.scalar b) ∧ a ≠ b := by
  obtain ⟨u, hu⟩ : ∃ u, empty.convert .utc (.scalar (.integer .int ⟨16777216, by decide⟩)) none
      (.scalar (.primitive .double)) = .ok u := ⟨_, rfl⟩
  obtain ⟨u', hu'⟩ : ∃ u, empty.convert .utc (.scalar (.integer .int ⟨16777217, by decide⟩)) none
      (.scalar (.primitive .double)) = .ok u := ⟨_, rfl⟩
  have numbers : ∀ s, .scalar s = (.scalar (.integer .int ⟨16777216, by decide⟩) : Value) ∨
      .scalar s = (.scalar (.integer .int ⟨16777217, by decide⟩) : Value) →
      s.isNaN = false ∧ (.scalar (.primitive .double) = FieldType.scalar .string → s.isRegular = true) := by
    rintro s (h | h) <;> cases h <;> exact ⟨rfl, nofun⟩
  obtain ⟨s, t, a, b, hs, ht, rfl, rfl, different, -⟩ :=
    convert_apart (v := .scalar (.integer .int ⟨16777216, by decide⟩))
      (w := .scalar (.integer .int ⟨16777217, by decide⟩)) (by decide) rfl (by decide) (by decide) (by decide)
      (by decide) (by decide) (by decide) (fun h => absurd h.1 (by decide)) numbers hu hu'
  cases hs
  cases ht
  exact ⟨a, b, hu, hu', different (by decide)⟩

/-- The clocks of a host that are set back once, at an instant that is given in seconds. -/
def setBack (instant : Int) (before after : Offset) (back : after.seconds ≤ before.seconds) : HostClock where
  offsetAt utc := if utc.toSeconds < instant then before else after
  earliest? l := some (if l.toSeconds - before.seconds < instant then before else after)
  offsetAt_earliest l offset h := by
    rw [Option.some.injEq] at h
    rw [LocalDateTime.toSeconds_later]
    split at h
    · rw [← h, if_pos (by omega)]
    · rw [← h, if_neg (by omega)]

/-- What is lost without being declared: what a time of day has beyond its milliseconds, the time of day of an
integer that becomes a date, in texts the seconds of an offset and the place of a leap second, and which of two
instants it is at which the clocks of a host show a date and time. -/
theorem convert_merged :
    (∃ r, empty.convert .utc (.scalar (.time ⟨0, 0, by decide, by decide⟩)) none
          (.scalar (.primitive (.integer .long))) = .ok r ∧
        empty.convert .utc (.scalar (.time ⟨0, 1, by decide, by decide⟩)) none
          (.scalar (.primitive (.integer .long))) = .ok r ∧
        concerns (.scalar .time) (.scalar (.primitive (.integer .long))) = []) ∧
      (∃ r, empty.convert .utc (.scalar (.integer .long ⟨0, by decide⟩)) none (.scalar .date) = .ok r ∧
        empty.convert .utc (.scalar (.integer .long ⟨1, by decide⟩)) none (.scalar .date) = .ok r ∧
        concerns (.scalar (.primitive (.integer .long))) (.scalar .date) = [.range, .timezone]) ∧
      (∃ r, empty.convert .utc (.scalar (.dateTime ⟨⟨.epoch, ⟨0, 0, by decide, by decide⟩⟩, ⟨1, by decide⟩⟩)) none
          (.scalar .string) = .ok r ∧
        empty.convert .utc (.scalar (.dateTime ⟨⟨.epoch, ⟨1, 0, by decide, by decide⟩⟩, .utc⟩)) none
          (.scalar .string) = .ok r ∧
        concerns (.scalar .dateTime) (.scalar .string) = []) ∧
      (∃ r, empty.convert .utc (.scalar (.time ⟨0, 1500000000, by decide, by decide⟩)) none (.scalar .string) = .ok r ∧
        empty.convert .utc (.scalar (.time ⟨1, 500000000, by decide, by decide⟩)) none (.scalar .string) = .ok r ∧
        concerns (.scalar .time) (.scalar .string) = []) ∧
      let zone := Zone.host (setBack 1729990800 ⟨7200, by decide⟩ ⟨3600, by decide⟩ (by decide))
      ∃ r,
        empty.convert zone (.scalar (.integer .long ⟨1729989000000, by decide⟩)) none (.scalar .localDateTime) = .ok r ∧
        empty.convert zone (.scalar (.integer .long ⟨1729992600000, by decide⟩)) none (.scalar .localDateTime) = .ok r ∧
        concerns (.scalar (.primitive (.integer .long))) (.scalar .localDateTime) = [.range, .timezone] := by
  refine ⟨⟨_, rfl, rfl, rfl⟩, ⟨.scalar (.date .epoch), ?_, ?_, rfl⟩,
    ⟨.scalar (.string "1970-01-01T00:00:01+00:00"), ?_, ?_, rfl⟩,
    ⟨.scalar (.string "00:00:01.500"), ?_, ?_, rfl⟩,
    ⟨.scalar (.localDateTime ⟨⟨2024, 10, 27, by decide, by decide⟩, ⟨9000, 0, by decide, by decide⟩⟩), ?_, ?_, rfl⟩⟩ <;>
    cbv

end Graph

end FieldBinding
