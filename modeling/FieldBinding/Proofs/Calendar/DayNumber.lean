import FieldBinding.Calendar.Moment

/-!
# Dates and day numbers

Every day has one number and every number is that of one day.  A date is seen as a day of a year that begins in
March: months are walked from the front of such a year, and a year is found in its cycle of four hundred years.

Main results:

* `Date.ofDayNumber_toDayNumber`, `Date.toDayNumber_ofDayNumber` — dates and numbers correspond.
* `LocalDateTime.ofSeconds_toSeconds`, `LocalDateTime.toSeconds_ofSeconds` — so do date-times and seconds.
* `LocalDateTime.later_later` — date-times are moved along as their seconds are.
-/

namespace FieldBinding

namespace Date

/-! ## Months of a year -/

/-- A day of a month is found behind the months before it. -/
theorem walk_total {lengths : List Nat} {m r : Nat} (hm : m < lengths.length) (hr : r < lengths[m]) :
    walk lengths (total (lengths.take m) + r) = (m, r) := by
  induction lengths generalizing m with
  | nil => simp at hm
  | cons length rest ih =>
    cases m with
    | zero => simpa [walk, total] using hr
    | succ m =>
      have step : total ((length :: rest).take (m + 1)) + r - length = total (rest.take m) + r := by
        simp only [List.take_succ_cons, total]
        omega
      have beyond : ¬ total ((length :: rest).take (m + 1)) + r < length := by
        simp only [List.take_succ_cons, total]
        omega
      rw [walk, if_neg beyond, step, ih (by simpa using hm) (by simpa using hr)]

/-- The months that are walked and the days that are left make up all days. -/
theorem total_walk (lengths : List Nat) (days : Nat) :
    total (lengths.take (walk lengths days).1) + (walk lengths days).2 = days := by
  induction lengths generalizing days with
  | nil => simp [walk, total]
  | cons length rest ih =>
    rw [walk]
    split
    · simp [total]
    · have := ih (days - length)
      simp only [List.take_succ_cons, total]
      omega

theorem total_take_add_lt {lengths : List Nat} {m r : Nat} (hm : m < lengths.length) (hr : r < lengths[m]) :
    total (lengths.take m) + r < total lengths := by
  induction lengths generalizing m with
  | nil => simp at hm
  | cons length rest ih =>
    cases m with
    | zero =>
      have : r < length := hr
      simp only [List.take_zero, total]
      omega
    | succ m =>
      have := ih (m := m) (by simpa using hm) (by simpa using hr)
      simp only [List.take_succ_cons, total]
      omega

/-! ## Years of a cycle -/

theorem daysBefore_cycle (cycle : Int) (year : Nat) :
    daysBefore (400 * cycle + year) = 146097 * cycle + daysBefore year := by
  unfold daysBefore
  omega

/-- The day of a cycle is the day of its year behind the years before. -/
theorem daysBefore_yearOfCycle {day : Nat} (h : day < 146097) :
    daysBefore (yearOfCycle day).1 + (yearOfCycle day).2 = day := by
  simp only [yearOfCycle]
  generalize hcentury : min (day / 36524) 3 = century
  generalize hspan : (day - 36524 * century) / 1461 = span
  generalize hyear : min ((day - 36524 * century - 1461 * span) / 365) 3 = year
  have spans : span ≤ 24 := by omega
  -- no century, no span and no year begins behind the day
  have inside : 36524 * century + 1461 * span + 365 * year ≤ day := by omega
  have fours : (100 * century + 4 * span + year) / 4 = 25 * century + span := by omega
  have hundreds : (100 * century + 4 * span + year) / 100 = century := by omega
  have cycles : (100 * century + 4 * span + year) / 400 = 0 := by omega
  unfold daysBefore
  omega

/-- Years follow one another without a gap. -/
theorem daysBefore_succ (year : Int) : daysBefore (year + 1) = daysBefore year + total (monthLengths year) := by
  rw [total_monthLengths]
  by_cases hleap : isLeap (year + 1)
  · rw [if_pos hleap]
    rw [isLeap_iff] at hleap
    unfold daysBefore
    omega
  · rw [if_neg hleap]
    rw [isLeap_iff] at hleap
    unfold daysBefore
    omega

theorem daysBefore_mono {a b : Int} (h : a ≤ b) : daysBefore a ≤ daysBefore b := by
  unfold daysBefore
  omega

/-- A day lies in one year only. -/
theorem daysBefore_unique {a b : Int} {r s : Nat} (hr : r < total (monthLengths a))
    (hs : s < total (monthLengths b)) (same : daysBefore a + r = daysBefore b + s) : a = b ∧ r = s := by
  have split : ∀ {x y : Int} {t u : Nat}, t < total (monthLengths x) → daysBefore x + t = daysBefore y + u →
      ¬ x < y := by
    intro x y t u ht eq less
    have next := daysBefore_succ x
    have := daysBefore_mono (a := x + 1) (b := y) (by omega)
    omega
  have year : a = b := by
    have := split hr same
    have := split hs same.symm
    omega
  subst year
  exact ⟨rfl, by omega⟩

/-! ## Dates -/

theorem eq_of_fields {d e : Date} (year : d.year = e.year) (month : d.month = e.month) (day : d.day = e.day) :
    d = e := by
  cases d
  cases e
  simp_all

/-- The year that begins in March and has the date. -/
def yearFromMarch (d : Date) : Int :=
  if d.month ≤ 2 then d.year - 1 else d.year

/-- The month of that year, from zero. -/
def monthFromMarch (d : Date) : Nat :=
  (d.month + 9) % 12

/-- The day of that year, from zero. -/
def dayFromMarch (d : Date) : Nat :=
  total ((monthLengths d.yearFromMarch).take d.monthFromMarch) + (d.day - 1)

theorem toDayNumber_eq (d : Date) :
    d.toDayNumber = daysBefore d.yearFromMarch + d.dayFromMarch - epochOffset := by
  simp only [toDayNumber, yearFromMarch, dayFromMarch, monthFromMarch]
  omega

theorem calendarYear_fromMarch (d : Date) : calendarYear d.yearFromMarch d.monthFromMarch = d.year := by
  have := d.month_mem
  unfold calendarYear yearFromMarch monthFromMarch
  split <;> split <;> omega

theorem calendarMonth_fromMarch (d : Date) : calendarMonth d.monthFromMarch = d.month := by
  have := d.month_mem
  unfold calendarMonth monthFromMarch
  omega

theorem length_monthLengths (year : Int) : (monthLengths year).length = 12 := by
  simp [monthLengths]

theorem getElem_monthLengths (year : Int) {m : Nat} (hm : m < (monthLengths year).length) :
    (monthLengths year)[m] = daysIn (calendarYear year m) (calendarMonth m) := by
  simp [monthLengths]

/-- A day lies inside its month. -/
theorem day_lt (d : Date) : ∃ hm : d.monthFromMarch < (monthLengths d.yearFromMarch).length,
    d.day - 1 < (monthLengths d.yearFromMarch)[d.monthFromMarch] := by
  have hm : d.monthFromMarch < (monthLengths d.yearFromMarch).length := by
    rw [length_monthLengths]
    exact Nat.mod_lt _ (by decide)
  refine ⟨hm, ?_⟩
  rw [getElem_monthLengths, calendarYear_fromMarch, calendarMonth_fromMarch]
  have := d.day_mem
  omega

theorem dayFromMarch_lt (d : Date) : d.dayFromMarch < total (monthLengths d.yearFromMarch) := by
  obtain ⟨hm, hr⟩ := d.day_lt
  exact total_take_add_lt hm hr

/-- A date is the one of its day of its year. -/
theorem ofDayOfYear_fromMarch (d : Date) (h : d.dayFromMarch < total (monthLengths d.yearFromMarch)) :
    ofDayOfYear d.yearFromMarch d.dayFromMarch h = d := by
  obtain ⟨hm, hr⟩ := d.day_lt
  have walked : walk (monthLengths d.yearFromMarch) d.dayFromMarch = (d.monthFromMarch, d.day - 1) :=
    walk_total hm hr
  have day : d.day - 1 + 1 = d.day := Nat.sub_add_cancel d.day_mem.1
  refine eq_of_fields ?_ ?_ ?_ <;>
    simp only [ofDayOfYear, walked, calendarYear_fromMarch, calendarMonth_fromMarch, day]

theorem fromMarch_calendarYear (year : Int) {m : Nat} (hm : m < 12) :
    (if calendarMonth m ≤ 2 then calendarYear year m - 1 else calendarYear year m) = year := by
  unfold calendarMonth calendarYear
  by_cases early : m < 10
  · rw [if_neg (by omega), if_pos early]
  · rw [if_pos (by omega), if_neg early]
    omega

section OfDayOfYear

variable (year : Int) (day : Nat) (h : day < total (monthLengths year))

theorem yearFromMarch_ofDayOfYear : (ofDayOfYear year day h).yearFromMarch = year := by
  obtain ⟨hm, -⟩ := walk_lt h
  rw [length_monthLengths] at hm
  exact fromMarch_calendarYear year hm

theorem monthFromMarch_ofDayOfYear :
    (ofDayOfYear year day h).monthFromMarch = (walk (monthLengths year) day).1 := by
  obtain ⟨hm, -⟩ := walk_lt h
  rw [length_monthLengths] at hm
  simp only [ofDayOfYear, monthFromMarch, calendarMonth]
  omega

theorem dayFromMarch_ofDayOfYear : (ofDayOfYear year day h).dayFromMarch = day := by
  rw [dayFromMarch, yearFromMarch_ofDayOfYear, monthFromMarch_ofDayOfYear]
  exact total_walk (monthLengths year) day

end OfDayOfYear

/-- The date with a day number has that number. -/
theorem toDayNumber_ofDayNumber (n : Int) : (ofDayNumber n).toDayNumber = n := by
  have inside : ((n + epochOffset) % 146097).toNat < 146097 := by omega
  have cycle := daysBefore_yearOfCycle inside
  rw [toDayNumber_eq, ofDayNumber, yearFromMarch_ofDayOfYear, dayFromMarch_ofDayOfYear, daysBefore_cycle]
  omega

/-- The day of a year is the date with the number of that day. -/
theorem ofDayNumber_daysBefore {year : Int} {day : Nat} (h : day < total (monthLengths year)) :
    ofDayNumber (daysBefore year + day - epochOffset) = ofDayOfYear year day h := by
  have number := toDayNumber_ofDayNumber (daysBefore year + day - epochOffset)
  generalize ofDayNumber (daysBefore year + day - epochOffset) = d at number
  rw [toDayNumber_eq] at number
  obtain ⟨rfl, rfl⟩ := daysBefore_unique d.dayFromMarch_lt h (by omega)
  exact (ofDayOfYear_fromMarch d h).symm

/-- A date is the one with its day number. -/
theorem ofDayNumber_toDayNumber (d : Date) : ofDayNumber d.toDayNumber = d := by
  rw [toDayNumber_eq, ofDayNumber_daysBefore d.dayFromMarch_lt, ofDayOfYear_fromMarch]

/-- A day of an earlier month comes before the days of a later one in its year. -/
theorem dayFromMarch_lt_of_month {d e : Date} (year : d.yearFromMarch = e.yearFromMarch)
    (month : d.monthFromMarch < e.monthFromMarch) : d.dayFromMarch < e.dayFromMarch := by
  obtain ⟨hm, hr⟩ := d.day_lt
  -- among the months before the later one the day is found where it is found in the year
  have inside : d.monthFromMarch < ((monthLengths d.yearFromMarch).take e.monthFromMarch).length := by
    rw [List.length_take]
    omega
  have before := total_take_add_lt inside (r := d.day - 1) (by rwa [List.getElem_take])
  rw [List.take_take, Nat.min_eq_left (Nat.le_of_lt month)] at before
  rw [dayFromMarch, dayFromMarch, ← year]
  omega

/-- A later day is not in an earlier year. -/
theorem year_le_of_toDayNumber_le {d e : Date} (h : d.toDayNumber ≤ e.toDayNumber) : d.year ≤ e.year := by
  refine Int.not_lt.1 fun later => ?_
  rw [toDayNumber_eq, toDayNumber_eq] at h
  have := d.month_mem
  have := e.month_mem
  have years : e.yearFromMarch ≤ d.yearFromMarch := by
    unfold yearFromMarch
    split <;> split <;> omega
  rcases Int.lt_or_eq_of_le years with before | same
  · have inside := e.dayFromMarch_lt
    have next := daysBefore_succ e.yearFromMarch
    have := daysBefore_mono (a := e.yearFromMarch + 1) (b := d.yearFromMarch) (by omega)
    omega
  · -- the year from March is the same: one day is behind the turn of the year and the other is not
    have month : e.monthFromMarch < d.monthFromMarch := by
      unfold yearFromMarch at same
      unfold monthFromMarch
      split at same <;> split at same <;> omega
    have := dayFromMarch_lt_of_month same month
    rw [same] at h
    omega

/-- The days between supported dates are supported. -/
theorem isSupported_of_between {d e f : Date} (first : d.isSupported = true) (last : f.isSupported = true)
    (low : d.toDayNumber ≤ e.toDayNumber) (high : e.toDayNumber ≤ f.toDayNumber) : e.isSupported = true := by
  have := year_le_of_toDayNumber_le low
  have := year_le_of_toDayNumber_le high
  simp only [isSupported, decide_eq_true_eq] at first last ⊢
  omega

/-- The supported dates are less than a hundred million days away from the start of 1970. -/
theorem toDayNumber_bounds {d : Date} (h : d.isSupported = true) :
    -100000000 < d.toDayNumber ∧ d.toDayNumber < 100000000 := by
  have low := d.dayFromMarch_lt
  rw [total_monthLengths] at low
  have days : d.dayFromMarch < 366 := by split at low <;> omega
  have year : d.year - 1 ≤ d.yearFromMarch ∧ d.yearFromMarch ≤ d.year := by
    unfold yearFromMarch
    split <;> omega
  simp only [isSupported, decide_eq_true_eq] at h
  rw [toDayNumber_eq, daysBefore, epochOffset]
  omega

end Date

/-! ## Date-times -/

namespace LocalDateTime

theorem toSeconds_ofSeconds (seconds : Int) (nanos : Nat) (h : nanos < 2000000000) :
    (ofSeconds seconds nanos h).toSeconds = seconds := by
  simp only [toSeconds, ofSeconds, Date.toDayNumber_ofDayNumber]
  omega

theorem ofSeconds_toSeconds (l : LocalDateTime) (h : l.time.nanos < 2000000000) :
    ofSeconds l.toSeconds l.time.nanos h = l := by
  have bound := l.time.seconds_lt
  have days : (86400 * l.date.toDayNumber + (l.time.seconds : Int)) / 86400 = l.date.toDayNumber := by omega
  have rest : ((86400 * l.date.toDayNumber + (l.time.seconds : Int)) % 86400).toNat = l.time.seconds := by omega
  simp only [ofSeconds, toSeconds, days, rest, Date.ofDayNumber_toDayNumber]

/-- The day of a date-time is found from its seconds. -/
theorem toDayNumber_date (l : LocalDateTime) : l.date.toDayNumber = l.toSeconds / 86400 := by
  have bound := l.time.seconds_lt
  unfold toSeconds
  omega

theorem toSeconds_ofDate (d : Date) : (ofDate d).toSeconds = 86400 * d.toDayNumber :=
  Int.add_zero _

/-- A date-time is known by its seconds and its nanoseconds. -/
theorem toSeconds_inj {l m : LocalDateTime} (seconds : l.toSeconds = m.toSeconds)
    (nanos : l.time.nanos = m.time.nanos) : l = m := by
  rw [← ofSeconds_toSeconds l l.time.nanos_lt, ← ofSeconds_toSeconds m m.time.nanos_lt]
  simp only [seconds, nanos]

@[simp] theorem toSeconds_later (l : LocalDateTime) (seconds : Int) :
    (l.later seconds).toSeconds = l.toSeconds + seconds :=
  toSeconds_ofSeconds _ _ _

@[simp] theorem nanos_later (l : LocalDateTime) (seconds : Int) : (l.later seconds).time.nanos = l.time.nanos :=
  rfl

@[simp] theorem later_zero (l : LocalDateTime) : l.later 0 = l :=
  toSeconds_inj (by simp) rfl

theorem later_later (l : LocalDateTime) (a b : Int) : (l.later a).later b = l.later (a + b) :=
  toSeconds_inj (by simp only [toSeconds_later]; omega) rfl

theorem later_inj {l m : LocalDateTime} {seconds : Int} (h : l.later seconds = m.later seconds) : l = m := by
  have moved := congrArg toSeconds h
  simp only [toSeconds_later] at moved
  exact toSeconds_inj (by omega) (congrArg (·.time.nanos) h)

end LocalDateTime

end FieldBinding
