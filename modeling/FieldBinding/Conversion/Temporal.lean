import FieldBinding.Conversion.Number

/-!
# Conversions of dates and times

Zones are named by `Z`, `UTC` or `GMT` in either case, or by an offset with a sign; without a name, the zone is that
of the host.

An integer counts milliseconds since the start of 1970, or since midnight where a time of day is concerned.
An instant that becomes a date or a time is read off at its own offset unless a zone is named.  A date or a
local date-time keeps its reading, whatever zone is given, as long as no instant is involved.
-/

namespace FieldBinding.Conversion

/-! ## Zones -/

/-- The offset of a zone with a name. -/
def offsetOf (name : String) : Except ConversionFault Offset :=
  let name := Text.trimmed name
  if name.map Char.toUpper ∈ ["Z", "UTC", "GMT"] then .ok .utc
  else
    match Offset.read? name.toList with
    | some offset => .ok offset
    | none => .error (.unknownZone name)

/-- The instant at which clocks with an offset show a date and time. -/
def instantAt (offset : Offset) (l : LocalDateTime) : Except ConversionFault OffsetDateTime :=
  match OffsetDateTime.ofLocal? l offset with
  | some i => .ok i
  | none => .error (.noSuchInstant l)

/-- The earliest instant at which the clocks of a zone show a date and time. -/
def attach (zone : Zone) (l : LocalDateTime) : Except ConversionFault OffsetDateTime :=
  match zone with
  | .named name => do instantAt (← offsetOf name) l
  | .host clock =>
    match clock.earliest? l with
    | some offset => instantAt offset l
    | none => .error (.noSuchInstant l)

/-- The offset of the clocks of a zone at an instant, which is given in UTC. -/
def offsetAt (zone : Zone) (utc : LocalDateTime) : Except ConversionFault Offset :=
  match zone with
  | .named name => offsetOf name
  | .host clock => .ok (clock.offsetAt utc)

/-- An instant, read off the clocks of a zone. -/
def view (zone : Zone) (i : OffsetDateTime) : Except ConversionFault OffsetDateTime := do
  return i.withOffset (← offsetAt zone i.utc)

/-! ## Common readings -/

/-- The instant that a value stands for in a zone. -/
def instant (zone : Zone) (v : Value) : Except ConversionFault OffsetDateTime :=
  match v with
  | .scalar (.dateTime i) =>
    match zone with
    | .named _ => view zone i
    | .host _ => .ok i
  | .scalar (.localDateTime l) => attach zone l
  | .scalar (.date d) => attach zone (.ofDate d)
  | .scalar (.integer .long millis) =>
    match OffsetDateTime.ofMillis? millis.toInt with
    | none => .error (.beyondCalendar millis.toInt)
    | some i => view zone i
  | _ => unexpected v

/-- The date and time that a value shows in a zone. -/
def reading (zone : Zone) (v : Value) : Except ConversionFault LocalDateTime :=
  match v with
  | .scalar (.localDateTime l) => .ok l
  | .scalar (.date d) => .ok (.ofDate d)
  | _ => do return (← instant zone v).toLocal

/-! ## Targets -/

/-- The date that a value shows. -/
def toDate (zone : Zone) (v : Value) : Except ConversionFault Scalar := do
  return .date (← reading zone v).date

/-- The time of day that a value shows; an integer counts milliseconds since midnight. -/
def toTime (zone : Zone) (v : Value) : Except ConversionFault Scalar :=
  match v with
  | .scalar (.integer .long millis) =>
    match TimeOfDay.ofMillis? millis.toInt with
    | some t => .ok (.time t)
    | none => .error (.beyondDay millis.toInt)
  | _ => do return .time (← reading zone v).time

/-- The instant that a value stands for. -/
def toDateTime (zone : Zone) (v : Value) : Except ConversionFault Scalar := do
  return .dateTime (← instant zone v)

/-- The date and time that a value shows. -/
def toLocalDateTime (zone : Zone) (v : Value) : Except ConversionFault Scalar := do
  return .localDateTime (← reading zone v)

/-- An integer of 64 bits. -/
def long (i : Int) : Except ConversionFault Scalar :=
  match Bounded.of? .long i with
  | some b => .ok (.integer .long b)
  | none => .error (.outside (.whole i) (.integer .long) IntegerKind.long.least IntegerKind.long.greatest)

/-- The milliseconds since the start of 1970, or since midnight for a time of day. -/
def toMillis (zone : Zone) (v : Value) : Except ConversionFault Scalar :=
  match v with
  | .scalar (.time t) => long t.toMillis
  | _ => do long (← instant zone v).toMillis

/-! ## Texts -/

/-- The date that a text writes. -/
def textToDate (v : Value) : Except ConversionFault Scalar := do
  let text ← trimmedText v
  match Date.read text.toList with
  | .ok d => .ok (.date d)
  | .error reason => .error (.notDate text reason)

/-- The time of day that a text writes. -/
def textToTime (v : Value) : Except ConversionFault Scalar := do
  let text ← trimmedText v
  match TimeOfDay.read? text.toList with
  | some t => .ok (.time t)
  | none => .error (.notTime text)

/-- The date-time that a text writes. -/
def textToLocalDateTime (v : Value) : Except ConversionFault Scalar := do
  let text ← trimmedText v
  match LocalDateTime.read? text.toList with
  | some l => .ok (.localDateTime l)
  | none => .error (.notLocalDateTime text)

/-- The instant that a text writes; a date-time without an offset is taken to be one of the zone. -/
def textToDateTime (zone : Zone) (v : Value) : Except ConversionFault Scalar := do
  let text ← trimmedText v
  match OffsetDateTime.read? text.toList with
  | some i => return .dateTime i
  | none =>
    match LocalDateTime.read? text.toList with
    | none => .error (.notDateTime text)
    | some l => return .dateTime (← attach zone l)

end FieldBinding.Conversion
