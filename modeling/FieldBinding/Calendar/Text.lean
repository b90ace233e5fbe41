import FieldBinding.Calendar.Moment
import FieldBinding.Numeral.Digits

/-!
# The text of dates and times

Dates are written `year-month-day`, times `hour:minute:second`.  A year from 0 to 9999 has four digits; any
other has a sign and at least four.  A fraction of a second has three, six or nine digits, the fewest that
are exact, and is left out when it is zero.  A leap second is written as the second after the one it
belongs to.

An instant is written with the date and time at its offset, and the offset to the nearest minute.
-/

namespace FieldBinding

open Numeral (digits padded)

/-- The text of a year. -/
def yearText (year : Int) : List Char :=
  if 0 ≤ year ∧ year ≤ 9999 then padded 4 year.toNat
  else (if year < 0 then '-' else '+') :: padded 4 year.natAbs

/-- The text of the nanoseconds of a second, with the point in front. -/
def fractionText (nanos : Nat) : List Char :=
  if nanos = 0 then []
  else if nanos % 1000000 = 0 then '.' :: padded 3 (nanos / 1000000)
  else if nanos % 1000 = 0 then '.' :: padded 6 (nanos / 1000)
  else '.' :: padded 9 nanos

/-- The text of a date. -/
def Date.chars (d : Date) : List Char :=
  yearText d.year ++ '-' :: padded 2 d.month ++ '-' :: padded 2 d.day

/-- The text of a time of day. -/
def TimeOfDay.chars (t : TimeOfDay) : List Char :=
  padded 2 t.hour ++ ':' :: padded 2 t.minute ++ ':' :: padded 2 (t.second + t.nanos / 1000000000) ++
    fractionText (t.nanos % 1000000000)

/-- The text of a date-time, with the given character between date and time. -/
def LocalDateTime.charsWith (separator : Char) (l : LocalDateTime) : List Char :=
  l.date.chars ++ separator :: l.time.chars

/-- The text of an offset, to the nearest minute; half a minute goes away from zero. -/
def Offset.chars (o : Offset) : List Char :=
  let minutes := (o.seconds.natAbs + 30) / 60
  (if o.seconds < 0 then '-' else '+') :: padded 2 (minutes / 60) ++ ':' :: padded 2 (minutes % 60)

/-- The text of an instant. -/
def OffsetDateTime.chars (i : OffsetDateTime) : List Char :=
  i.toLocal.charsWith 'T' ++ i.offset.chars

/-- The text of a date. -/
def Date.text (d : Date) : String :=
  String.ofList d.chars

/-- The text of a time of day. -/
def TimeOfDay.text (t : TimeOfDay) : String :=
  String.ofList t.chars

/-- The text of a date-time, which can be read back. -/
def LocalDateTime.text (l : LocalDateTime) : String :=
  String.ofList (l.charsWith 'T')

/-- The text of a date-time inside a sentence. -/
def LocalDateTime.prose (l : LocalDateTime) : String :=
  String.ofList (l.charsWith ' ')

/-- The text of an instant. -/
def OffsetDateTime.text (i : OffsetDateTime) : String :=
  String.ofList i.chars

end FieldBinding
