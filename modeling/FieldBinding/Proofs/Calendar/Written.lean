import Mathlib.Data.List.Basic
import FieldBinding.Calendar.Text
import FieldBinding.Proofs.Calendar.DayNumber
import FieldBinding.Proofs.Numeral.Padded

/-!
# The texts of dates and times determine them

Every part of a date or a time stands in its text at a place of its own: all numbers but the year and the fraction
have fixed widths, the year stands first and the fraction last.  Two things are not written.  A leap second looks like
the first second of the next minute if it does not stand at the end of its minute, and an offset is written to the
minute only.  What is without these is *regular*.

Main results:

* `Date.chars_inj`, `TimeOfDay.chars_inj`, `LocalDateTime.charsWith_inj` — dates, times and date-times with the same
  text are the same.
* `OffsetDateTime.chars_inj` — so are instants, together with their offsets.
-/

namespace FieldBinding

-- Powers are those of the core library, whatever other instances are in sight.
attribute [local instance (2000)] instPowNat

open Numeral

/-! ## What is regular -/

/-- Whether a leap second stands at the end of its minute. -/
def TimeOfDay.isRegular (t : TimeOfDay) : Bool :=
  t.nanos < 1000000000 ∨ t.second = 59

theorem TimeOfDay.isRegular_iff {t : TimeOfDay} :
    t.isRegular = true ↔ t.nanos < 1000000000 ∨ t.seconds % 60 = 59 :=
  decide_eq_true_iff

/-- Whether an offset has whole minutes. -/
def Offset.isRegular (o : Offset) : Bool :=
  o.seconds % 60 = 0

/-- Whether a leap second stands at the end of its minute and the offset has whole minutes. -/
def OffsetDateTime.isRegular (i : OffsetDateTime) : Bool :=
  i.utc.time.isRegular && i.offset.isRegular

/-! ## Dates -/

/-- A year is read back from its text. -/
theorem integer?_yearText (year : Int) : integer? (yearText year) = some year := by
  unfold yearText
  split
  · next plain =>
    rw [integer?_of_isDigit fun c hc => isDigit_of_mem_padded hc, value?_padded, Option.map_some]
    congr 1
    simp only [Int.ofNat_eq_natCast]
    omega
  · split
    · have read : integer? ('-' :: padded 4 year.natAbs) = some (-(year.natAbs : Int)) := by
        simp [integer?, value?_padded]
      rw [read]
      congr 1
      omega
    · have read : integer? ('+' :: padded 4 year.natAbs) = some (year.natAbs : Int) := by
        simp [integer?, value?_padded]
      rw [read]
      congr 1
      omega

theorem yearText_inj {y z : Int} (h : yearText y = yearText z) : y = z := by
  have read := integer?_yearText y
  rw [h, integer?_yearText] at read
  exact (Option.some.inj read).symm

/-- A number of two digits behind a separator. -/
theorem length_cons_padded_two (separator : Char) {n : Nat} (h : n < 100) :
    (separator :: padded 2 n).length = 3 := by
  rw [List.length_cons, length_padded (by decide) h]

theorem daysIn_le (year : Int) (month : Nat) : daysIn year month ≤ 31 := by
  unfold daysIn
  split
  · split <;> decide
  · split <;> decide

theorem Date.fields_mem (d : Date) : (1 ≤ d.month ∧ d.month ≤ 12) ∧ 1 ≤ d.day ∧ d.day ≤ 31 :=
  ⟨d.month_mem, d.day_mem.1, Nat.le_trans d.day_mem.2 (daysIn_le d.year d.month)⟩

/-- Dates with the same text are the same. -/
theorem Date.chars_inj {d e : Date} (h : d.chars = e.chars) : d = e := by
  have short : ∀ c : Date, c.month < 100 ∧ c.day < 100 := by
    intro c
    have := c.fields_mem
    omega
  have length : ∀ {m n : Nat}, m < 100 → n < 100 → ('-' :: padded 2 m).length = ('-' :: padded 2 n).length :=
    fun hm hn => (length_cons_padded_two '-' hm).trans (length_cons_padded_two '-' hn).symm
  obtain ⟨front, day⟩ := List.append_inj' h (length (short d).2 (short e).2)
  obtain ⟨year, month⟩ := List.append_inj' front (length (short d).1 (short e).1)
  exact eq_of_fields (yearText_inj year) (padded_inj (List.cons.inj month).2) (padded_inj (List.cons.inj day).2)

/-! ## Times -/

/-- The nanoseconds are read back from the fraction: as many digits as there are, and zeros behind them. -/
theorem value_fractionText {nanos : Nat} (h : nanos < 1000000000) :
    value (fractionText nanos).tail * 10 ^ (9 - (fractionText nanos).tail.length) = nanos := by
  unfold fractionText
  split
  · next zero => simp [value, zero]
  split
  · rw [List.tail_cons, value_padded, length_padded (by decide) (by omega)]
    omega
  split
  · rw [List.tail_cons, value_padded, length_padded (by decide) (by omega)]
    omega
  · rw [List.tail_cons, value_padded, length_padded (by decide) (by omega)]
    omega

theorem fractionText_inj {m n : Nat} (hm : m < 1000000000) (hn : n < 1000000000)
    (h : fractionText m = fractionText n) : m = n := by
  rw [← value_fractionText hm, h, value_fractionText hn]

/-- A leap second is written as 60 at most. -/
theorem TimeOfDay.fields_le (t : TimeOfDay) :
    t.hour ≤ 23 ∧ t.minute ≤ 59 ∧ t.second + t.nanos / 1000000000 ≤ 60 := by
  have := t.seconds_lt
  have := t.nanos_lt
  unfold hour minute second
  omega

/-- Regular times with the same text are the same. -/
theorem TimeOfDay.chars_inj {t u : TimeOfDay} (ht : t.isRegular = true) (hu : u.isRegular = true)
    (h : t.chars = u.chars) : t = u := by
  have small : ∀ v : TimeOfDay, v.hour < 100 ∧ v.minute < 100 ∧ v.second + v.nanos / 1000000000 < 100 := by
    intro v
    have := v.fields_le
    omega
  have length : ∀ {m n : Nat}, m < 100 → n < 100 → (':' :: padded 2 m).length = (':' :: padded 2 n).length :=
    fun hm hn => (length_cons_padded_two ':' hm).trans (length_cons_padded_two ':' hn).symm
  obtain ⟨th, tm, ts⟩ := small t
  obtain ⟨uh, um, us⟩ := small u
  have hours : (padded 2 t.hour).length = (padded 2 u.hour).length := by
    rw [length_padded (by decide) th, length_padded (by decide) uh]
  have minutes := length tm um
  have seconds := length ts us
  obtain ⟨front, fraction⟩ := List.append_inj h (by
    simp only [List.length_append]
    omega)
  obtain ⟨front, second⟩ := List.append_inj' front seconds
  obtain ⟨hour, minute⟩ := List.append_inj' front minutes
  replace hour := padded_inj hour
  replace minute := padded_inj (List.cons.inj minute).2
  replace second := padded_inj (List.cons.inj second).2
  replace fraction := fractionText_inj (Nat.mod_lt _ (by decide)) (Nat.mod_lt _ (by decide)) fraction
  rw [isRegular_iff] at ht hu
  simp only [TimeOfDay.hour, TimeOfDay.minute, TimeOfDay.second] at hour minute second
  have := t.nanos_lt
  have := u.nanos_lt
  -- a leap second is the only one that is written as 60
  have nanos : t.nanos = u.nanos := by omega
  have seconds : t.seconds = u.seconds := by omega
  cases t
  cases u
  simp_all

/-! ## Date-times -/

/-- The text of a year has digits and signs only. -/
theorem mem_yearText {year : Int} {c : Char} (h : c ∈ yearText year) : c.isDigit = true ∨ c = '-' ∨ c = '+' := by
  unfold yearText at h
  split at h
  · exact .inl (isDigit_of_mem_padded h)
  · rcases List.mem_cons.1 h with sign | digit
    · split at sign
      · exact .inr (.inl sign)
      · exact .inr (.inr sign)
    · exact .inl (isDigit_of_mem_padded digit)

/-- The text of a date has digits and signs only. -/
theorem Date.mem_chars {d : Date} {c : Char} (h : c ∈ d.chars) : c.isDigit = true ∨ c = '-' ∨ c = '+' := by
  simp only [Date.chars, List.mem_append, List.mem_cons] at h
  rcases h with (h | h | h) | h | h
  · exact mem_yearText h
  · exact .inr (.inl h)
  · exact .inl (isDigit_of_mem_padded h)
  · exact .inr (.inl h)
  · exact .inl (isDigit_of_mem_padded h)

/-- The text of a time of day has digits, colons and a point only. -/
theorem TimeOfDay.mem_chars {t : TimeOfDay} {c : Char} (h : c ∈ t.chars) : c.isDigit = true ∨ c = ':' ∨ c = '.' := by
  have fraction : ∀ {c}, c ∈ fractionText (t.nanos % 1000000000) → c.isDigit = true ∨ c = ':' ∨ c = '.' := by
    intro c h
    have pointed : ∀ {width n : Nat}, c ∈ '.' :: padded width n → c.isDigit = true ∨ c = ':' ∨ c = '.' := by
      intro width n h
      rcases List.mem_cons.1 h with point | digit
      · exact .inr (.inr point)
      · exact .inl (isDigit_of_mem_padded digit)
    unfold fractionText at h
    split at h
    · cases h
    split at h
    · exact pointed h
    split at h
    · exact pointed h
    · exact pointed h
  simp only [TimeOfDay.chars, List.mem_append, List.mem_cons] at h
  rcases h with ((h | h | h) | h | h) | h
  · exact .inl (isDigit_of_mem_padded h)
  · exact .inr (.inl h)
  · exact .inl (isDigit_of_mem_padded h)
  · exact .inr (.inl h)
  · exact .inl (isDigit_of_mem_padded h)
  · exact fraction h

/-- Regular date-times with the same text are the same. -/
theorem LocalDateTime.charsWith_inj {l m : LocalDateTime} (hl : l.time.isRegular = true)
    (hm : m.time.isRegular = true) (h : l.charsWith 'T' = m.charsWith 'T') : l = m := by
  have date : 'T' ∉ l.date.chars := fun mem => absurd (Date.mem_chars mem) (by decide)
  have time : 'T' ∉ l.time.chars := fun mem => absurd (TimeOfDay.mem_chars mem) (by decide)
  obtain ⟨dates, -, times⟩ := (List.append_cons_inj_of_notMem date time).1 h
  have date := Date.chars_inj dates
  have time := TimeOfDay.chars_inj hl hm times
  cases l
  cases m
  simp_all

/-! ## Instants -/

theorem OffsetDateTime.eq_of_fields {i j : OffsetDateTime} (utc : i.utc = j.utc) (offset : i.offset = j.offset) :
    i = j := by
  cases i
  cases j
  simp_all

theorem Offset.minutes_lt (o : Offset) : (o.seconds.natAbs + 30) / 60 / 60 < 100 := by
  have := o.seconds_lt
  omega

/-- All offsets have texts of the same length. -/
theorem Offset.length_chars (o : Offset) : o.chars.length = 6 := by
  have hours : (padded 2 ((o.seconds.natAbs + 30) / 60 / 60)).length = 2 := length_padded (by decide) o.minutes_lt
  have minutes : (padded 2 ((o.seconds.natAbs + 30) / 60 % 60)).length = 2 :=
    length_padded (by decide) (by omega)
  simp only [chars, List.length_append, List.length_cons, hours, minutes]

/-- Offsets of whole minutes with the same text are the same. -/
theorem Offset.chars_inj {o p : Offset} (ho : o.isRegular = true) (hp : p.isRegular = true)
    (h : o.chars = p.chars) : o = p := by
  obtain ⟨sign, rest⟩ := List.cons.inj h
  have widths : (padded 2 ((o.seconds.natAbs + 30) / 60 / 60)).length =
      (padded 2 ((p.seconds.natAbs + 30) / 60 / 60)).length := by
    rw [length_padded (by decide) o.minutes_lt, length_padded (by decide) p.minutes_lt]
  obtain ⟨hours, minutes⟩ := List.append_inj rest widths
  replace hours := padded_inj hours
  replace minutes := padded_inj (List.cons.inj minutes).2
  simp only [isRegular, decide_eq_true_eq] at ho hp
  have signs : o.seconds < 0 ↔ p.seconds < 0 := by
    by_cases negative : o.seconds < 0 <;> by_cases negative' : p.seconds < 0 <;> simp [negative, negative'] at sign ⊢
  have seconds : o.seconds = p.seconds := by omega
  cases o
  cases p
  simp_all

/-- Where the offset has whole minutes a leap second stays where it is in its minute. -/
theorem OffsetDateTime.isRegular_toLocal {i : OffsetDateTime} (h : i.isRegular = true) :
    i.toLocal.time.isRegular = true := by
  simp only [isRegular, Offset.isRegular, Bool.and_eq_true, decide_eq_true_eq, TimeOfDay.isRegular_iff] at h ⊢
  have seconds : i.toLocal.time.seconds = ((i.utc.toSeconds + i.offset.seconds) % 86400).toNat := rfl
  have nanos : i.toLocal.time.nanos = i.utc.time.nanos := rfl
  rw [seconds, nanos, LocalDateTime.toSeconds]
  omega

/-- Regular instants with the same text are the same, and so are their offsets. -/
theorem OffsetDateTime.chars_inj {i j : OffsetDateTime} (hi : i.isRegular = true) (hj : j.isRegular = true)
    (h : i.chars = j.chars) : i = j := by
  obtain ⟨readings, offsets⟩ := List.append_inj' h (by rw [Offset.length_chars, Offset.length_chars])
  have local' := LocalDateTime.charsWith_inj (isRegular_toLocal hi) (isRegular_toLocal hj) readings
  have offset := Offset.chars_inj (Bool.and_eq_true_iff.1 hi).2 (Bool.and_eq_true_iff.1 hj).2 offsets
  rw [toLocal, toLocal, offset] at local'
  exact eq_of_fields (LocalDateTime.later_inj local') offset

end FieldBinding
