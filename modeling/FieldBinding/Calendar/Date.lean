/-!
# Dates of the proleptic Gregorian calendar

A `Date` is a year, a month and a day of that month.  Its day number counts the days from the first of
January 1970; `Date.ofDayNumber` finds the date with a given number.

The years of the count begin on the first of March, so that the leap day is the last day of its year.  Four
hundred such years are one cycle of 146097 days, a cycle is cut into centuries, these into spans of four
years, and these into years; the months of the year are then walked one by one.
-/

namespace FieldBinding

/-- Whether the year has a leap day: every fourth year does, except three out of four centuries. -/
def isLeap (year : Int) : Bool :=
  year % 4 = 0 ∧ (year % 100 ≠ 0 ∨ year % 400 = 0)

theorem isLeap_iff {year : Int} :
    isLeap year = true ↔ year % 4 = 0 ∧ (year % 100 ≠ 0 ∨ year % 400 = 0) := by
  simp [isLeap]

/-- The number of days of a month. -/
def daysIn (year : Int) (month : Nat) : Nat :=
  if month = 2 then (if isLeap year then 29 else 28)
  else if month = 4 ∨ month = 6 ∨ month = 9 ∨ month = 11 then 30
  else 31

/-- A day of the calendar. -/
structure Date where
  year : Int
  month : Nat
  day : Nat
  month_mem : 1 ≤ month ∧ month ≤ 12 := by decide
  day_mem : 1 ≤ day ∧ day ≤ daysIn year month := by decide
  deriving DecidableEq, Repr

namespace Date

/-- The date with a year, a month and a day, if there is one. -/
def of? (year : Int) (month day : Nat) : Option Date :=
  if hm : 1 ≤ month ∧ month ≤ 12 then
    if hd : 1 ≤ day ∧ day ≤ daysIn year month then some ⟨year, month, day, hm, hd⟩ else none
  else none

/-- The first day of the count. -/
def epoch : Date where
  year := 1970
  month := 1
  day := 1

/-- Whether the year is one of those that texts and instants can name. -/
def isSupported (d : Date) : Bool :=
  -262143 ≤ d.year ∧ d.year ≤ 262142

/-! ## Years that begin in March -/

/-- The month of the calendar that is the given month, from zero, of a year that begins in March. -/
def calendarMonth (m : Nat) : Nat :=
  (m + 2) % 12 + 1

/-- The year of the calendar of the given month of a year that begins in March. -/
def calendarYear (year : Int) (m : Nat) : Int :=
  if m < 10 then year else year + 1

/-- The lengths of the months of a year that begins in March. -/
def monthLengths (year : Int) : List Nat :=
  (List.range 12).map fun m => daysIn (calendarYear year m) (calendarMonth m)

/-- The days of some months together. -/
def total : List Nat → Nat
  | [] => 0
  | length :: rest => length + total rest

/-- The days of all years before the given one, in years that begin in March, from the year zero. -/
def daysBefore (year : Int) : Int :=
  365 * year + year / 4 - year / 100 + year / 400

/-- The day number of the first of March of the year zero, with the sign reversed. -/
def epochOffset : Int :=
  719468

/-- The number of days from the first of January 1970. -/
def toDayNumber (d : Date) : Int :=
  let m := (d.month + 9) % 12
  let year := if d.month ≤ 2 then d.year - 1 else d.year
  daysBefore year + total ((monthLengths year).take m) + (d.day - 1 : Nat) - epochOffset

/-! ## The date with a day number -/

/-- How many of the lengths, one after another, fit into a number of days, and the days that are left. -/
def walk : List Nat → Nat → Nat × Nat
  | [], days => (0, days)
  | length :: rest, days =>
    if days < length then (0, days)
    else
      let (m, left) := walk rest (days - length)
      (m + 1, left)

theorem walk_lt {lengths : List Nat} {days : Nat} (h : days < total lengths) :
    ∃ hm : (walk lengths days).1 < lengths.length,
      (walk lengths days).2 < lengths[(walk lengths days).1] := by
  induction lengths generalizing days with
  | nil => simp [total] at h
  | cons length rest ih =>
    by_cases hd : days < length
    · simp [walk, hd]
    · have hrest : days - length < total rest := by rw [total] at h; omega
      obtain ⟨hm, hr⟩ := ih hrest
      refine ⟨by simp [walk, hd]; omega, ?_⟩
      simpa [walk, hd] using hr

/-- The year, beginning in March, of a day of the cycle, and the day of that year. -/
def yearOfCycle (day : Nat) : Nat × Nat :=
  let century := min (day / 36524) 3
  let ofCentury := day - 36524 * century
  let span := ofCentury / 1461
  let ofSpan := ofCentury - 1461 * span
  let year := min (ofSpan / 365) 3
  (100 * century + 4 * span + year, ofSpan - 365 * year)

theorem total_monthLengths (year : Int) :
    total (monthLengths year) = if isLeap (year + 1) then 366 else 365 := by
  have : monthLengths year =
      [31, 30, 31, 30, 31, 31, 30, 31, 30, 31, 31, daysIn (year + 1) 2] := by
    simp [monthLengths, List.range, List.range.loop, calendarYear, calendarMonth, daysIn]
  rw [this]
  by_cases h : isLeap (year + 1) <;> simp [total, daysIn, h]

/-- A day of the cycle lies inside its year. -/
theorem yearOfCycle_lt {day : Nat} (h : day < 146097) (cycle : Int) :
    (yearOfCycle day).2 < total (monthLengths (400 * cycle + (yearOfCycle day).1)) := by
  rw [total_monthLengths]
  by_cases hleap : isLeap (400 * cycle + (yearOfCycle day).1 + 1)
  · rw [if_pos hleap]
    simp only [yearOfCycle]
    omega
  · rw [if_neg hleap]
    rw [isLeap_iff] at hleap
    simp only [yearOfCycle] at hleap ⊢
    omega

/-- The date of a day of a year that begins in March. -/
def ofDayOfYear (year : Int) (day : Nat) (h : day < total (monthLengths year)) : Date :=
  have spec := walk_lt h
  { year := calendarYear year (walk (monthLengths year) day).1
    month := calendarMonth (walk (monthLengths year) day).1
    day := (walk (monthLengths year) day).2 + 1
    month_mem := by unfold calendarMonth; omega
    day_mem := by
      obtain ⟨hm, hr⟩ := spec
      simp only [monthLengths, List.getElem_map, List.getElem_range] at hr
      exact ⟨by omega, hr⟩ }

/-- The date with a day number. -/
def ofDayNumber (n : Int) : Date :=
  let shifted := n + epochOffset
  let day := (shifted % 146097).toNat
  ofDayOfYear (400 * (shifted / 146097) + (yearOfCycle day).1) (yearOfCycle day).2
    (yearOfCycle_lt (by omega) _)

end Date

end FieldBinding
