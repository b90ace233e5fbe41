import FieldBinding.Proofs.Calendar.DayNumber

/-!
# Milliseconds and instants

Milliseconds are counted from the start of 1970, and a count has an instant if the date of the instant is a supported
one.  The clocks of a place show that instant as a date and time; from the reading the instant is found again, and from
its date the midnight before it.  A midnight may lie outside of the supported dates although the instant does not, so
there has to be a day to spare.  The milliseconds of a single day are times of day as well.

Main results:

* `OffsetDateTime.toMillis_atMillis` — an instant has the milliseconds that it was made from.
* `OffsetDateTime.ofLocal?_toLocal` — an instant is found again from the reading of a clock.
* `OffsetDateTime.isSupported_of_year` — an instant has a supported date if a clock shows a year of four digits.
* `OffsetDateTime.ofLocal?_midnight` — the midnight before an instant.
* `TimeOfDay.toMillis_of_ofMillis?` — a time of day has the milliseconds that it was made from.
-/

namespace FieldBinding

namespace OffsetDateTime

/-- The milliseconds of a second are no leap second. -/
theorem nanos_of_millis_lt (millis : Int) : (millis % 1000).toNat * 1000000 < 2000000000 := by
  omega

/-- The instant that many milliseconds after the start of 1970, read off in some place. -/
def atMillis (millis : Int) (offset : Offset) : OffsetDateTime :=
  ⟨.ofSeconds (millis / 1000) ((millis % 1000).toNat * 1000000) (nanos_of_millis_lt millis), offset⟩

/-- Whether there are instants a day before and a day after the given milliseconds. -/
def DayToSpare (millis : Int) : Prop :=
  (ofMillis? (millis - 86400000)).isSome ∧ (ofMillis? (millis + 86400000)).isSome

instance (millis : Int) : Decidable (DayToSpare millis) :=
  inferInstanceAs (Decidable (_ ∧ _))

variable {millis : Int} {offset : Offset}

theorem toSeconds_atMillis : (atMillis millis offset).utc.toSeconds = millis / 1000 :=
  LocalDateTime.toSeconds_ofSeconds _ _ _

/-- An instant has the milliseconds that it was made from. -/
theorem toMillis_atMillis : (atMillis millis offset).toMillis = millis := by
  rw [toMillis, toSeconds_atMillis]
  simp only [atMillis, LocalDateTime.ofSeconds]
  omega

/-! ## Supported dates -/

theorem isSome_ofMillis?_iff : (ofMillis? millis).isSome ↔ (Date.ofDayNumber (millis / 86400000)).isSupported := by
  have day : millis / 1000 / 86400 = millis / 86400000 := by omega
  simp only [ofMillis?, LocalDateTime.ofSeconds, day]
  split
  · next supported => simp [supported]
  · next unsupported => simp [unsupported]

/-- With a day to spare, all dates of instants within a day are supported. -/
theorem DayToSpare.isSupported (spare : DayToSpare millis) {d : Date}
    (low : (millis - 86400000) / 86400000 ≤ d.toDayNumber) (high : d.toDayNumber ≤ (millis + 86400000) / 86400000) :
    d.isSupported = true := by
  have first := isSome_ofMillis?_iff.1 spare.1
  have last := isSome_ofMillis?_iff.1 spare.2
  exact Date.isSupported_of_between first last (by rwa [Date.toDayNumber_ofDayNumber])
    (by rwa [Date.toDayNumber_ofDayNumber])

theorem DayToSpare.isSupported_atMillis (spare : DayToSpare millis) (offset : Offset) :
    (atMillis millis offset).utc.date.isSupported = true := by
  have day := LocalDateTime.toDayNumber_date (atMillis millis offset).utc
  rw [toSeconds_atMillis] at day
  exact spare.isSupported (by omega) (by omega)

theorem DayToSpare.ofMillis? (spare : DayToSpare millis) : ofMillis? millis = some (atMillis millis .utc) :=
  if_pos (spare.isSupported_atMillis .utc)

/-! ## Clocks -/

/-- An instant is found again from the reading of a clock and the offset of the clock. -/
theorem ofLocal?_toLocal {i : OffsetDateTime} (supported : i.utc.date.isSupported = true) :
    ofLocal? i.toLocal i.offset = some i := by
  have back : i.toLocal.later (-i.offset.seconds) = i.utc := by
    rw [toLocal, LocalDateTime.later_later, Int.add_right_neg, LocalDateTime.later_zero]
  simp only [ofLocal?, back, supported, if_true]

/-- An instant that a clock shows with a year of four digits has a supported date: it is less than a day away. -/
theorem isSupported_of_year {i : OffsetDateTime} (year : 0 ≤ i.toLocal.date.year ∧ i.toLocal.date.year ≤ 9999) :
    i.utc.date.isSupported = true := by
  let before : Date := ⟨-1, 1, 1, by decide, by decide⟩
  let after : Date := ⟨10000, 1, 1, by decide, by decide⟩
  have low : before.toDayNumber < i.toLocal.date.toDayNumber :=
    Int.not_le.1 fun h => absurd (Date.year_le_of_toDayNumber_le h) (Int.not_le.2 (by simp only [before]; omega))
  have high : i.toLocal.date.toDayNumber < after.toDayNumber :=
    Int.not_le.1 fun h => absurd (Date.year_le_of_toDayNumber_le h) (Int.not_le.2 (by simp only [after]; omega))
  have day : i.toLocal.date.toDayNumber = (i.utc.toSeconds + i.offset.seconds) / 86400 := by
    rw [LocalDateTime.toDayNumber_date, toLocal, LocalDateTime.toSeconds_later]
  have utcDay := LocalDateTime.toDayNumber_date i.utc
  have offset := i.offset.seconds_lt
  exact Date.isSupported_of_between (d := before) (f := after) rfl rfl (by omega) (by omega)

/-- The midnight before an instant has the milliseconds of the instant without those since midnight. -/
theorem ofLocal?_midnight (spare : DayToSpare millis) (offset : Offset) :
    ∃ i, ofLocal? (.ofDate (atMillis millis offset).toLocal.date) offset = some i ∧
      i.toMillis = millis - (millis + 1000 * offset.seconds) % 86400000 := by
  let midnight := (LocalDateTime.ofDate (atMillis millis offset).toLocal.date).later (-offset.seconds)
  have seconds : midnight.toSeconds = 86400 * ((millis / 1000 + offset.seconds) / 86400) - offset.seconds := by
    rw [LocalDateTime.toSeconds_later, LocalDateTime.toSeconds_ofDate, LocalDateTime.toDayNumber_date, toLocal,
      LocalDateTime.toSeconds_later, toSeconds_atMillis]
    rfl
  have offsets := offset.seconds_lt
  have supported : midnight.date.isSupported = true := by
    have day := LocalDateTime.toDayNumber_date midnight
    exact spare.isSupported (by omega) (by omega)
  refine ⟨⟨midnight, offset⟩, if_pos supported, ?_⟩
  have nanos : midnight.time.nanos = 0 := rfl
  rw [toMillis, seconds, nanos]
  omega

end OffsetDateTime

/-! ## Times of day -/

namespace TimeOfDay

/-- Milliseconds are a time of day if there are fewer of them than a day has. -/
theorem isSome_ofMillis?_iff {millis : Int} : (ofMillis? millis).isSome ↔ 0 ≤ millis ∧ millis < 86400000 := by
  unfold ofMillis?
  split
  · next inside => exact iff_of_true rfl inside
  · next outside => exact iff_of_false Bool.false_ne_true outside

theorem toMillis_of_ofMillis? {millis : Int} {t : TimeOfDay} (h : ofMillis? millis = some t) :
    (t.toMillis : Int) = millis := by
  unfold ofMillis? at h
  split at h
  · cases h
    simp only [toMillis]
    omega
  · cases h

end TimeOfDay

end FieldBinding
