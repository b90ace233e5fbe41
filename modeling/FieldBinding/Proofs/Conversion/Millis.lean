import FieldBinding.Proofs.Calendar.Millis
import FieldBinding.Proofs.Conversion.Loss

/-!
# Milliseconds that are converted and come back

An integer counts milliseconds since the start of 1970 where it becomes an instant, a date-time or a date, and
milliseconds since midnight where it becomes a time of day.  Instants, date-times and times of day keep all of the
count; a date keeps the midnight before.

Main results:

* `Conversion.instant_long_eq`, `Conversion.reading_long_eq` — what becomes of milliseconds in a zone.
* `Graph.convert_millis` — all ways from milliseconds to dates and times and back.
-/

namespace FieldBinding

namespace Conversion

variable {zone : Zone} {offset : Offset} {ms : Bounded .long}

/-! ## Out -/

theorem toDateTime_eq {v : Value} {i : OffsetDateTime} (found : instant zone v = .ok i) :
    toDateTime zone v = .ok (.dateTime i) := by
  rw [toDateTime, found]
  rfl

theorem toLocalDateTime_eq {v : Value} {l : LocalDateTime} (shown : reading zone v = .ok l) :
    toLocalDateTime zone v = .ok (.localDateTime l) := by
  rw [toLocalDateTime, shown]
  rfl

theorem toDate_eq {v : Value} {l : LocalDateTime} (shown : reading zone v = .ok l) :
    toDate zone v = .ok (.date l.date) := by
  rw [toDate, shown]
  rfl

/-- Whether the clocks of a zone show every date and time, and always with the same offset. -/
structure HasOffset (zone : Zone) (offset : Offset) : Prop where
  offsetAt : ∀ utc, offsetAt zone utc = .ok offset
  attach : ∀ l, attach zone l = instantAt offset l

/-- A zone with an accepted name has one offset. -/
theorem hasOffset_named {name : String} (accepted : offsetOf name = .ok offset) : HasOffset (.named name) offset where
  offsetAt _ := accepted
  attach l := by
    simp only [Conversion.attach, accepted]
    rfl

/-- The zone of a host whose clocks show UTC has the offset of UTC. -/
theorem hasOffset_utc : HasOffset .utc .utc :=
  ⟨fun _ => rfl, fun _ => rfl⟩

theorem HasOffset.view (accepted : HasOffset zone offset) (i : OffsetDateTime) :
    view zone i = .ok (i.withOffset offset) := by
  simp only [Conversion.view, accepted.offsetAt]
  rfl

theorem instant_long_eq (accepted : HasOffset zone offset) (spare : OffsetDateTime.DayToSpare ms.toInt) :
    instant zone (.scalar (.integer .long ms)) = .ok (.atMillis ms.toInt offset) := by
  simp only [instant, spare.ofMillis?]
  exact accepted.view _

theorem reading_long_eq (accepted : HasOffset zone offset) (spare : OffsetDateTime.DayToSpare ms.toInt) :
    reading zone (.scalar (.integer .long ms)) = .ok (OffsetDateTime.atMillis ms.toInt offset).toLocal := by
  simp only [reading, instant_long_eq accepted spare]
  rfl

theorem toTime_long_eq_ok_iff (zone : Zone) {a : Scalar} :
    toTime zone (.scalar (.integer .long ms)) = .ok a ↔ ∃ t, TimeOfDay.ofMillis? ms.toInt = some t ∧ a = .time t := by
  unfold toTime
  simp only
  cases TimeOfDay.ofMillis? ms.toInt with
  | none => simp
  | some t => simp [eq_comm]

/-! ## Back -/

/-- An integer of 64 bits is one. -/
theorem long_toInt (ms : Bounded .long) : long ms.toInt = .ok (.integer .long ms) := by
  simp only [long, Bounded.of?, dif_pos ms.fits]

/-- The milliseconds of an instant that is found. -/
theorem toMillis_of_instant {s : Scalar} {i : OffsetDateTime} (found : instant zone (.scalar s) = .ok i)
    (untimed : s.kind ≠ .time) (millis : i.toMillis = ms.toInt) :
    toMillis zone (.scalar s) = .ok (.integer .long ms) := by
  have counted : toMillis zone (.scalar s) = instant zone (.scalar s) >>= fun i => long i.toMillis := by
    cases s <;> first | rfl | exact absurd rfl untimed
  rw [counted, found, ← long_toInt, ← millis]
  rfl

/-- An instant has the same milliseconds in every zone. -/
theorem toMillis_dateTime_eq (accepted : HasOffset zone offset) {i : OffsetDateTime}
    (millis : i.toMillis = ms.toInt) : toMillis zone (.scalar (.dateTime i)) = .ok (.integer .long ms) := by
  cases zone with
  | named name => exact toMillis_of_instant (accepted.view i) nofun millis
  | host clock => exact toMillis_of_instant rfl nofun millis

/-- In the zone where it is read off, an instant is read off as it is. -/
theorem reading_dateTime_eq {i : OffsetDateTime} (accepted : HasOffset zone i.offset) :
    reading zone (.scalar (.dateTime i)) = .ok i.toLocal := by
  cases zone with
  | named name =>
    simp only [reading, instant, accepted.view]
    rfl
  | host clock => rfl

theorem instantAt_eq {l : LocalDateTime} {i : OffsetDateTime} (found : OffsetDateTime.ofLocal? l offset = some i) :
    instantAt offset l = .ok i := by
  simp only [instantAt, found]

theorem instant_localDateTime_eq (accepted : HasOffset zone offset) {l : LocalDateTime} {i : OffsetDateTime}
    (found : OffsetDateTime.ofLocal? l offset = some i) : instant zone (.scalar (.localDateTime l)) = .ok i := by
  simp only [instant, accepted.attach]
  exact instantAt_eq found

theorem instant_date_eq (accepted : HasOffset zone offset) {d : Date} {i : OffsetDateTime}
    (found : OffsetDateTime.ofLocal? (.ofDate d) offset = some i) : instant zone (.scalar (.date d)) = .ok i := by
  simp only [instant, accepted.attach]
  exact instantAt_eq found

/-- The midnight before an instant is an integer of milliseconds. -/
theorem exists_toMillis_midnight (accepted : HasOffset zone offset)
    (spare : OffsetDateTime.DayToSpare ms.toInt) :
    ∃ midnight : Bounded .long,
      toMillis zone (.scalar (.date (OffsetDateTime.atMillis ms.toInt offset).toLocal.date)) =
          .ok (.integer .long midnight) ∧
        midnight.toInt = ms.toInt - (ms.toInt + 1000 * offset.seconds) % 86400000 := by
  obtain ⟨i, found, millis⟩ := OffsetDateTime.ofLocal?_midnight spare offset
  obtain ⟨a, counted⟩ := long_toMillis (instantAt_eq_ok (instantAt_eq found)).2
  obtain ⟨midnight, rfl, same⟩ := long_eq_ok counted
  exact ⟨midnight, toMillis_of_instant (instant_date_eq accepted found) nofun same.symm, same.trans millis⟩

end Conversion

namespace Graph

open Conversion

/-- Milliseconds of one day become a time of day, and no others do. -/
theorem convert_long_time_iff {g : Graph} {zone : Zone} {ms : Bounded .long} {u : Value} :
    g.convert zone (.scalar (.integer .long ms)) none (.scalar .time) = .ok u ↔
      ∃ t, TimeOfDay.ofMillis? ms.toInt = some t ∧ u = .scalar (.time t) := by
  constructor
  · intro made
    obtain ⟨_, a, ⟨⟩, rfl, run⟩ := convert_eq_ok made nofun nofun rfl
    obtain ⟨t, found, rfl⟩ := (toTime_long_eq_ok_iff zone).1 run
    exact ⟨t, found, rfl⟩
  · rintro ⟨t, found, rfl⟩
    exact convert_of_rule g rfl ((toTime_long_eq_ok_iff zone).2 ⟨t, found, rfl⟩)

/-- All ways from milliseconds to dates and times and back.  In a zone with one offset, such as every accepted name
stands for, and with a day to spare, milliseconds become an instant, a date-time and a date.  The instant becomes the
same milliseconds in every such zone.  The date-time is the one that the instant is converted to in the zone; it
becomes the milliseconds, and the instant, in the same zone.  The date becomes the milliseconds without those since
midnight in the zone.

Milliseconds become a time of day exactly if there are fewer of them than a day has, and it becomes the same
milliseconds. -/
theorem convert_millis (g : Graph) (ms : Bounded .long) :
    let long : Value := .scalar (.integer .long ms)
    let count : FieldType := .scalar (.primitive (.integer .long))
    (∀ zone offset, HasOffset zone offset → OffsetDateTime.DayToSpare ms.toInt →
        ∃ instant reading date midnight,
          g.convert zone long none (.scalar .dateTime) = .ok instant ∧
          (∀ zone' offset', HasOffset zone' offset' → g.convert zone' instant none count = .ok long) ∧
          g.convert zone long none (.scalar .localDateTime) = .ok reading ∧
          g.convert zone instant none (.scalar .localDateTime) = .ok reading ∧
          g.convert zone reading none count = .ok long ∧
          g.convert zone reading none (.scalar .dateTime) = .ok instant ∧
          g.convert zone long none (.scalar .date) = .ok date ∧
          g.convert zone date none count = .ok (.scalar (.integer .long midnight)) ∧
          midnight.toInt = ms.toInt - (ms.toInt + 1000 * offset.seconds) % 86400000) ∧
      ∀ zone, ((∃ time, g.convert zone long none (.scalar .time) = .ok time) ↔
          0 ≤ ms.toInt ∧ ms.toInt < 86400000) ∧
        ∀ time, g.convert zone long none (.scalar .time) = .ok time →
          ∀ zone', g.convert zone' time none count = .ok long := by
  intro long count
  refine ⟨fun zone offset accepted spare => ?_, fun zone => ?_⟩
  · let i : OffsetDateTime := .atMillis ms.toInt offset
    have millis : i.toMillis = ms.toInt := OffsetDateTime.toMillis_atMillis
    have found : OffsetDateTime.ofLocal? i.toLocal offset = some i :=
      OffsetDateTime.ofLocal?_toLocal (spare.isSupported_atMillis offset)
    have placed := instant_localDateTime_eq accepted found
    have shown := reading_long_eq accepted spare
    obtain ⟨midnight, dated, before⟩ := exists_toMillis_midnight accepted spare
    refine ⟨.scalar (.dateTime i), .scalar (.localDateTime i.toLocal), .scalar (.date i.toLocal.date), midnight,
      convert_of_rule g rfl (toDateTime_eq (instant_long_eq accepted spare)),
      fun zone' offset' accepted' => convert_of_rule g rfl (toMillis_dateTime_eq accepted' millis),
      convert_of_rule g rfl (toLocalDateTime_eq shown),
      convert_of_rule g rfl (toLocalDateTime_eq (reading_dateTime_eq (i := i) accepted)),
      convert_of_rule g rfl (toMillis_of_instant placed nofun millis),
      convert_of_rule g rfl (toDateTime_eq placed),
      convert_of_rule g rfl (toDate_eq shown), convert_of_rule g rfl dated, before⟩
  · refine ⟨⟨fun ⟨u, made⟩ => ?_, fun inside => ?_⟩, fun u made zone' => ?_⟩
    · obtain ⟨t, found, -⟩ := convert_long_time_iff.1 made
      exact TimeOfDay.isSome_ofMillis?_iff.1 (by simp [found])
    · obtain ⟨t, found⟩ := Option.isSome_iff_exists.1 (TimeOfDay.isSome_ofMillis?_iff.2 inside)
      exact ⟨_, convert_long_time_iff.2 ⟨t, found, rfl⟩⟩
    · obtain ⟨t, found, rfl⟩ := convert_long_time_iff.1 made
      have counted : toMillis zone' (.scalar (.time t)) = .ok (.integer .long ms) := by
        rw [← long_toInt, ← TimeOfDay.toMillis_of_ofMillis? found]
        rfl
      exact convert_of_rule g rfl counted

/-- The last millisecond of 1969, in a zone where it is the evening of that day, and back in UTC. -/
theorem convert_millis_negative :
    let ms : Bounded .long := ⟨-1, by decide⟩
    let zone : Zone := .named "-05:30"
    (HasOffset zone ⟨-19800, by decide⟩ ∧ OffsetDateTime.DayToSpare ms.toInt ∧ HasOffset .utc .utc) ∧
      ∃ instant date, empty.convert zone (.scalar (.integer .long ms)) none (.scalar .dateTime) = .ok instant ∧
        empty.convert .utc instant none (.scalar (.primitive (.integer .long))) = .ok (.scalar (.integer .long ms)) ∧
        empty.convert zone (.scalar (.integer .long ms)) none (.scalar .date) = .ok date ∧
        empty.convert zone date none (.scalar (.primitive (.integer .long))) =
          .ok (.scalar (.integer .long ⟨-66600000, by decide⟩)) := by
  intro ms zone
  have accepted : HasOffset zone ⟨-19800, by decide⟩ := hasOffset_named (by cbv)
  have spare : OffsetDateTime.DayToSpare ms.toInt := by decide +kernel
  obtain ⟨instant, -, date, midnight, counted, same, -, -, -, -, made, back, before⟩ :=
    (convert_millis empty ms).1 zone _ accepted spare
  obtain rfl : midnight = ⟨-66600000, by decide⟩ := Bounded.eq_of_toInt before
  exact ⟨⟨accepted, spare, hasOffset_utc⟩, instant, date, counted, same _ _ hasOffset_utc, made, back⟩

end Graph

end FieldBinding
