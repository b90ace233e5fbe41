import FieldBinding.Calendar.Moment
import FieldBinding.Numeral.Digits
import FieldBinding.Text.Blank

/-!
# Reading dates and times

Readers for the texts of dates, times, date-times and instants.  A `Reader` takes characters from the front
of a text; `Reader.whole?` and `Reader.whole` ask that nothing is left.

In dates, times and local date-times white space is skipped in front of each number, a year without a sign
has at most four digits and the other numbers have at most two.  Instants are strict: their numbers have
exactly four or two digits, and an offset follows.

A second may be 60; it is the leap second behind second 59.
-/

namespace FieldBinding

-- Powers are those of the core library, whatever other instances are in sight.
attribute [local instance (2000)] instPowNat

/-- Why a text is not a date. -/
inductive DateFault where
  | tooShort
  | invalid
  | outOfRange
  | trailing
  deriving DecidableEq, Repr

/-- What is wrong, in words. -/
def DateFault.message : DateFault → String
  | tooShort => "premature end of input"
  | invalid => "input contains invalid characters"
  | outOfRange => "input is out of range"
  | trailing => "trailing input"

/-- A reader takes characters from the front of a text. -/
abbrev Reader (α : Type) := StateT (List Char) (Except DateFault) α

namespace Reader

/-- Reads a whole text. -/
def whole {α : Type} (r : Reader α) (text : List Char) : Except DateFault α :=
  match r.run text with
  | .ok (a, []) => .ok a
  | .ok (_, _ :: _) => .error .trailing
  | .error fault => .error fault

/-- Reads a whole text, without a reason for failure. -/
def whole? {α : Type} (r : Reader α) (text : List Char) : Option α :=
  (r.whole text).toOption

/-- Skips white space. -/
def blanks : Reader Unit :=
  modify Text.trimStart

/-- Takes one given character. -/
def char (c : Char) : Reader Unit := do
  match ← get with
  | [] => throw .tooShort
  | d :: rest => if d = c then set rest else throw .invalid

/-- Takes one of some characters. -/
def oneOf (cs : List Char) : Reader Char := do
  match ← get with
  | [] => throw .tooShort
  | d :: rest => if d ∈ cs then set rest; return d else throw .invalid

/-- Takes as many digits as there are, up to a number of them. -/
def digitsUpTo (most : Nat) : Reader (List Char) := do
  let text ← get
  let ds := (text.take most).takeWhile Char.isDigit
  set (text.drop ds.length)
  return ds

/-- Takes all digits in front. -/
def allDigits : Reader (List Char) := do
  let text ← get
  set (text.dropWhile Char.isDigit)
  return text.takeWhile Char.isDigit

/-- The number of some digits, of which there have to be at least as many as given. -/
def numberOf (least : Nat) (ds : List Char) : Reader Nat := do
  if least ≤ ds.length then return Numeral.value ds
  else throw (if (← get).isEmpty then .tooShort else .invalid)

/-- Takes a number with a least and a most number of digits that lies in a range. -/
def number (least most : Nat) (range : Nat × Nat) : Reader Nat := do
  let n ← numberOf least (← digitsUpTo most)
  if range.1 ≤ n ∧ n ≤ range.2 then return n else throw .outOfRange

/-! ## Dates -/

/-- Takes the digits of a year from a text: any number behind a sign, at most four otherwise. -/
def signedYear : List Char → Reader Int
  | '-' :: rest => do
    set rest
    return -(← numberOf 1 (← allDigits) : Int)
  | '+' :: rest => do
    set rest
    return (← numberOf 1 (← allDigits) : Int)
  | _ => do return (← numberOf 1 (← digitsUpTo 4) : Int)

/-- Takes a year behind white space. -/
def year : Reader Int := do
  blanks
  let y ← signedYear (← get)
  if -2147483648 ≤ y ∧ y ≤ 2147483647 then return y else throw .outOfRange

/-- Takes a number of one or two digits that lies in a range. -/
def shortNumber (range : Nat × Nat) : Reader Nat := do
  blanks
  number 1 2 range

/-- The supported date with a year, a month and a day. -/
def dateOf (year : Int) (month day : Nat) : Except DateFault Date :=
  match (Date.of? year month day).filter Date.isSupported with
  | some d => .ok d
  | none => .error .outOfRange

/-- Takes a year, a month and a day. -/
def dateFields : Reader (Int × Nat × Nat) := do
  let y ← year
  char '-'
  let m ← shortNumber (1, 12)
  char '-'
  let d ← shortNumber (1, 31)
  return (y, m, d)

/-! ## Times -/

/-- Takes the nanoseconds of a second behind a point, if there is one.  Digits after the ninth are dropped. -/
def fraction : Reader Nat := do
  match ← get with
  | '.' :: rest =>
    set rest
    let ds ← digitsUpTo 9
    let n ← numberOf 1 ds
    let _ ← allDigits
    return n * 10 ^ (9 - ds.length)
  | _ => return 0

/-- The time with an hour, a minute, a second up to 60 and nanoseconds. -/
def timeOf (hour minute second nanos : Nat) : Reader TimeOfDay :=
  match TimeOfDay.of? hour minute (min second 59) (nanos + if second = 60 then 1000000000 else 0) with
  | some t => return t
  | none => throw .outOfRange

/-- Takes an hour, a minute and a second with a fraction. -/
def timeToSecond : Reader TimeOfDay := do
  let h ← shortNumber (0, 23)
  char ':'
  let m ← shortNumber (0, 59)
  char ':'
  let s ← shortNumber (0, 60)
  timeOf h m s (← fraction)

/-- Takes an hour and a minute. -/
def timeToMinute : Reader TimeOfDay := do
  let h ← shortNumber (0, 23)
  char ':'
  let m ← shortNumber (0, 59)
  timeOf h m 0 0

/-! ## Date-times -/

/-- Takes a date and a time with a separator between them. -/
def dateTimeWith (separator : Reader Unit) : Reader LocalDateTime := do
  let (y, m, d) ← dateFields
  separator
  let t ← timeToSecond
  return ⟨← dateOf y m d, t⟩

/-! ## Offsets and instants -/

/-- Takes an offset: a sign, two digits of hours, a separator and two digits of minutes. -/
def offset (separator : Reader Unit) : Reader Offset := do
  let sign ← oneOf ['+', '-', '\u2212']
  let hours ← number 2 2 (0, 99)
  separator
  let minutes ← number 2 2 (0, 59)
  let seconds : Int := 3600 * hours + 60 * minutes
  match Offset.of? (if sign = '+' then seconds else -seconds) with
  | some o => return o
  | none => throw .outOfRange

/-- Takes the letter of UTC or an offset with a colon. -/
def zuluOrOffset : Reader Offset := do
  match ← get with
  | 'Z' :: rest | 'z' :: rest =>
    set rest
    return .utc
  | _ => offset (char ':')

/-- Takes a date and time of fixed widths with an offset. -/
def instant : Reader OffsetDateTime := do
  let y ← number 4 4 (0, 9999)
  char '-'
  let m ← number 2 2 (1, 12)
  char '-'
  let d ← number 2 2 (1, 31)
  let _ ← oneOf ['T', 't', ' ']
  let h ← number 2 2 (0, 23)
  char ':'
  let min ← number 2 2 (0, 59)
  char ':'
  let s ← number 2 2 (0, 60)
  let nanos ← fraction
  let o ← zuluOrOffset
  let moment : LocalDateTime := ⟨← dateOf y m d, ← timeOf h min s nanos⟩
  match OffsetDateTime.ofLocal? moment o with
  | some i => return i
  | none => throw .outOfRange

end Reader

/-- The date that a text writes.  Whether the month has such a day is asked of a whole text only. -/
def Date.read (text : List Char) : Except DateFault Date := do
  let (y, m, d) ← Reader.dateFields.whole text
  Reader.dateOf y m d

/-- The time of day that a text writes, with or without a second. -/
def TimeOfDay.read? (text : List Char) : Option TimeOfDay :=
  (Reader.timeToSecond.whole? text).or (Reader.timeToMinute.whole? text)

/-- The date-time that a text writes, with the letter or with white space between date and time. -/
def LocalDateTime.read? (text : List Char) : Option LocalDateTime :=
  ((Reader.dateTimeWith (Reader.char 'T')).whole? text).or
    ((Reader.dateTimeWith Reader.blanks).whole? text)

/-- The instant that a text writes. -/
def OffsetDateTime.read? (text : List Char) : Option OffsetDateTime :=
  Reader.instant.whole? text

/-- The offset at the front of a text; colons and white space may stand between hours and minutes. -/
def Offset.read? (text : List Char) : Option Offset :=
  let separator : Reader Unit := modify (·.dropWhile fun c => c = ':' || Text.isBlank c)
  ((Reader.offset separator).run text).toOption.map (·.1)

end FieldBinding
