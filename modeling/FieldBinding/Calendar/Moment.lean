import FieldBinding.Calendar.Date

/-!
# Times, local date-times and instants

A `TimeOfDay` counts the seconds since midnight and the nanoseconds of the second.  A leap second is shown
by nanoseconds from a thousand million upwards: it belongs to the second before it.

A `LocalDateTime` is a date with a time of day, read off a clock of no particular place.  An `Offset` says
how far the clocks of a place are ahead of UTC, and an `OffsetDateTime` is an instant together with such an
offset: it keeps the date and time in UTC.

A `Zone` is named, or it is the zone of the host.  The clocks of the host may be set forward and back, and nothing is
known of them but what a `HostClock` answers.
-/

namespace FieldBinding

/-- A time of day. -/
structure TimeOfDay where
  seconds : Nat
  nanos : Nat
  seconds_lt : seconds < 86400 := by decide
  nanos_lt : nanos < 2000000000 := by decide
  deriving DecidableEq, Repr

namespace TimeOfDay

/-- The time with an hour, a minute, a second and nanoseconds, if there is one. -/
def of? (hour minute second nanos : Nat) : Option TimeOfDay :=
  if h : hour < 24 ∧ minute < 60 ∧ second < 60 ∧ nanos < 2000000000 then
    some ⟨3600 * hour + 60 * minute + second, nanos, by omega, h.2.2.2⟩
  else none

/-- The start of the day. -/
def midnight : TimeOfDay where
  seconds := 0
  nanos := 0

/-- The hour of the day. -/
def hour (t : TimeOfDay) : Nat :=
  t.seconds / 3600

/-- The minute of the hour. -/
def minute (t : TimeOfDay) : Nat :=
  t.seconds / 60 % 60

/-- The second of the minute. -/
def second (t : TimeOfDay) : Nat :=
  t.seconds % 60

/-- The milliseconds since midnight. -/
def toMillis (t : TimeOfDay) : Nat :=
  1000 * t.seconds + t.nanos / 1000000

/-- The time that many milliseconds after midnight, on the same day. -/
def ofMillis? (millis : Int) : Option TimeOfDay :=
  if h : 0 ≤ millis ∧ millis < 86400000 then
    some ⟨millis.toNat / 1000, millis.toNat % 1000 * 1000000, by omega, by omega⟩
  else none

theorem of?_hour_minute_second (t : TimeOfDay) :
    of? t.hour t.minute t.second t.nanos = some t := by
  have hs := t.seconds_lt
  have hn := t.nanos_lt
  have h : t.hour < 24 ∧ t.minute < 60 ∧ t.second < 60 ∧ t.nanos < 2000000000 := by
    simp only [hour, minute, second]
    omega
  have hsum : 3600 * t.hour + 60 * t.minute + t.second = t.seconds := by
    simp only [hour, minute, second]
    omega
  simp only [of?, dif_pos h, hsum]

end TimeOfDay

/-! ## Local date-times -/

/-- A date with a time of day. -/
structure LocalDateTime where
  date : Date
  time : TimeOfDay
  deriving DecidableEq, Repr

namespace LocalDateTime

/-- The start of a day. -/
def ofDate (d : Date) : LocalDateTime :=
  ⟨d, .midnight⟩

/-- The seconds from the start of 1970. -/
def toSeconds (l : LocalDateTime) : Int :=
  86400 * l.date.toDayNumber + l.time.seconds

/-- The date-time that many seconds after the start of 1970. -/
def ofSeconds (seconds : Int) (nanos : Nat) (h : nanos < 2000000000) : LocalDateTime :=
  { date := .ofDayNumber (seconds / 86400)
    time := ⟨(seconds % 86400).toNat, nanos, by omega, h⟩ }

/-- The date-time some seconds later.  The nanoseconds stay, so a leap second stays one. -/
def later (l : LocalDateTime) (seconds : Int) : LocalDateTime :=
  ofSeconds (l.toSeconds + seconds) l.time.nanos l.time.nanos_lt

end LocalDateTime

/-! ## Instants -/

/-- The seconds by which the clocks of a place are ahead of UTC: less than a day either way. -/
structure Offset where
  seconds : Int
  seconds_lt : -86400 < seconds ∧ seconds < 86400 := by decide
  deriving DecidableEq, Repr

namespace Offset

/-- The offset of UTC itself. -/
def utc : Offset where
  seconds := 0

/-- The offset of some seconds. -/
def of? (seconds : Int) : Option Offset :=
  if h : -86400 < seconds ∧ seconds < 86400 then some ⟨seconds, h⟩ else none

end Offset

/-- An instant, and the offset of the place where it is read off. -/
structure OffsetDateTime where
  utc : LocalDateTime
  offset : Offset
  deriving DecidableEq, Repr

namespace OffsetDateTime

/-- The date and time on the clocks of the place. -/
def toLocal (i : OffsetDateTime) : LocalDateTime :=
  i.utc.later i.offset.seconds

/-- The instant at which the clocks of a place show a date and time, if its date is a supported one. -/
def ofLocal? (l : LocalDateTime) (offset : Offset) : Option OffsetDateTime :=
  let utc := l.later (-offset.seconds)
  if utc.date.isSupported then some ⟨utc, offset⟩ else none

/-- The milliseconds since the start of 1970 in UTC. -/
def toMillis (i : OffsetDateTime) : Int :=
  1000 * i.utc.toSeconds + (i.utc.time.nanos / 1000000 : Nat)

/-- The instant that many milliseconds after the start of 1970, if its date is a supported one. -/
def ofMillis? (millis : Int) : Option OffsetDateTime :=
  let utc := LocalDateTime.ofSeconds (millis / 1000) ((millis % 1000).toNat * 1000000) (by omega)
  if utc.date.isSupported then some ⟨utc, .utc⟩ else none

/-- The same instant, read off elsewhere. -/
def withOffset (i : OffsetDateTime) (offset : Offset) : OffsetDateTime :=
  { i with offset }

end OffsetDateTime

/-! ## Zones -/

/-- The clocks of a host. -/
structure HostClock where
  /-- Their offset at an instant, which is given in UTC. -/
  offsetAt : LocalDateTime → Offset
  /-- Their offset at the earliest instant at which they show a date and time; none if they skip it. -/
  earliest? : LocalDateTime → Option Offset
  offsetAt_earliest : ∀ l offset, earliest? l = some offset → offsetAt (l.later (-offset.seconds)) = offset

/-- The clocks that always show UTC. -/
def HostClock.utc : HostClock where
  offsetAt _ := .utc
  earliest? _ := some .utc
  offsetAt_earliest _ _ := Option.some.inj

/-- The zone of a conversion. -/
inductive Zone where
  | named (name : String)
  | host (clock : HostClock)

namespace Zone

/-- The zone of a host whose clocks show UTC. -/
def utc : Zone :=
  host .utc

/-- The zone with a name; without one it is that of the host. -/
def ofName (clock : HostClock) : Option String → Zone
  | some name => named name
  | none => host clock

/-- Where no clocks are given, those of the host show UTC. -/
instance : Coe (Option String) Zone :=
  ⟨ofName .utc⟩

end Zone

end FieldBinding
