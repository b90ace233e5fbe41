import FieldBinding.Calendar.Reading
import FieldBinding.Proofs.Calendar.Millis
import FieldBinding.Proofs.Calendar.Written

/-!
# Dates and times that are read back

A reader *takes* a text if it consumes just that text, whatever stands behind it, and what it answers with is said
together with it.  Readers one after another take their texts one after another, so that the text of a date or a time
is read part by part.  Behind a part there has to be something that does not go on with it: behind a year no digit,
and behind a fraction neither a digit nor a point.

The first format that is tried for a text is the one that it was written in, and no other is asked.

Main results:

* `Date.read_chars` — a supported date is read back from its text.
* `TimeOfDay.read?_chars`, `LocalDateTime.read?_charsWith` — so are regular times and date-times.
* `OffsetDateTime.read?_chars` — so are regular instants whose year has four digits, with their offsets.
-/

namespace FieldBinding

-- Powers are those of the core library, whatever other instances are in sight.
attribute [local instance (2000)] instPowNat

open Numeral

namespace Reader

variable {α β : Type} {front next rest : List Char} {a : α} {b : β}

/-! ## What a reader takes -/

/-- Whether a reader takes a text from the front of whatever stands there, and answers with a value. -/
def Takes (r : Reader α) (front : List Char) (a : α) (rest : List Char) : Prop :=
  r.run (front ++ rest) = .ok (a, rest)

theorem takes_pure (a : α) : Takes (pure a) [] a rest := rfl

/-- Readers one after another take their texts one after another. -/
theorem Takes.bind {r : Reader α} {f : α → Reader β} (first : r.Takes front a (next ++ rest))
    (second : (f a).Takes next b rest) : (r >>= f).Takes (front ++ next) b rest := by
  unfold Takes at first second ⊢
  rw [List.append_assoc, StateT.run_bind, first]
  exact second

/-- A reader that takes nothing, and another behind it. -/
theorem Takes.after {r : Reader α} {f : α → Reader β} (first : r.Takes [] a (front ++ rest))
    (second : (f a).Takes front b rest) : (r >>= f).Takes front b rest :=
  first.bind second

/-- A reader, and another behind it that takes nothing. -/
theorem Takes.last {r : Reader α} {f : α → Reader β} (first : r.Takes front a rest)
    (second : (f a).Takes [] b rest) : (r >>= f).Takes front b rest := by
  have both : (r >>= f).Takes (front ++ []) b rest := first.bind second
  rwa [List.append_nil] at both

theorem whole_eq {r : Reader α} (takes : r.Takes front a []) : r.whole front = .ok a := by
  unfold Takes at takes
  rw [List.append_nil] at takes
  rw [whole, takes]

theorem whole?_eq {r : Reader α} (takes : r.Takes front a []) : r.whole? front = some a := by
  rw [whole?, whole_eq takes]
  rfl

theorem takes_get : (get : Reader (List Char)).Takes [] rest rest := rfl

theorem takes_set (c : Char) : (set rest : Reader Unit).Takes [c] () rest := rfl

theorem takes_char (c : Char) : (char c).Takes [c] () rest := by
  refine takes_get.after ?_
  show Takes (if c = c then set rest else throw .invalid) [c] () rest
  rw [if_pos rfl]
  exact takes_set c

theorem takes_oneOf {c : Char} {cs : List Char} (mem : c ∈ cs) : (oneOf cs).Takes [c] c rest := by
  refine takes_get.after ?_
  show Takes (if c ∈ cs then (do set rest; return c) else throw .invalid) [c] c rest
  rw [if_pos mem]
  exact (takes_set c).last (takes_pure c)

/-- No white space is skipped where there is none. -/
theorem takes_blanks (first : ∀ c ∈ rest.head?, Text.isBlank c = false) : blanks.Takes [] () rest := by
  have kept : Text.trimStart rest = rest := by
    cases rest with
    | nil => rfl
    | cons c rest => simp [Text.trimStart, first c rfl]
  exact congrArg (fun text => Except.ok ((), text)) kept

/-! ## Digits -/

/-- Whether a text does not go on with a digit. -/
def EndsDigits (rest : List Char) : Prop :=
  ∀ c ∈ rest.head?, c.isDigit = false

variable {ds : List Char}

theorem takeWhile_digits (digits : ∀ c ∈ ds, c.isDigit = true) (ends : EndsDigits rest) :
    (ds ++ rest).takeWhile Char.isDigit = ds ∧ (ds ++ rest).dropWhile Char.isDigit = rest := by
  rw [List.takeWhile_append_of_pos digits, List.dropWhile_append_of_pos digits]
  cases rest with
  | nil => simp
  | cons c rest => simp [ends c rfl]

theorem takes_allDigits (digits : ∀ c ∈ ds, c.isDigit = true) (ends : EndsDigits rest) :
    allDigits.Takes ds ds rest := by
  obtain ⟨taken, dropped⟩ := takeWhile_digits digits ends
  show Except.ok ((ds ++ rest).takeWhile Char.isDigit, (ds ++ rest).dropWhile Char.isDigit) = _
  rw [taken, dropped]

/-- Digits are taken up to the most that there may be, or up to the end of the digits. -/
theorem takes_digitsUpTo {most : Nat} (digits : ∀ c ∈ ds, c.isDigit = true) (short : ds.length ≤ most)
    (ends : ds.length = most ∨ EndsDigits rest) : (digitsUpTo most).Takes ds ds rest := by
  have taken : ((ds ++ rest).take most).takeWhile Char.isDigit = ds := by
    rw [List.take_append, List.take_of_length_le short]
    refine (takeWhile_digits digits fun c mem => ?_).1
    rw [List.head?_take] at mem
    split at mem
    · cases mem
    · next more => exact ends.resolve_left (by omega) c mem
  show Except.ok (_, (ds ++ rest).drop _) = _
  rw [taken, List.drop_left]

theorem takes_numberOf {least : Nat} (enough : least ≤ ds.length) : (numberOf least ds).Takes [] (value ds) rest := by
  rw [numberOf, if_pos enough]
  exact takes_pure _

/-- A number is taken with all of its digits, or with as many as it may have. -/
theorem takes_number {least most : Nat} {range : Nat × Nat} (digits : ∀ c ∈ ds, c.isDigit = true)
    (enough : least ≤ ds.length) (short : ds.length ≤ most) (ends : ds.length = most ∨ EndsDigits rest)
    (inside : range.1 ≤ value ds ∧ value ds ≤ range.2) : (number least most range).Takes ds (value ds) rest := by
  refine (takes_digitsUpTo digits short ends).last ((takes_numberOf enough).after ?_)
  rw [if_pos inside]
  exact takes_pure _

/-- A number is taken that is padded to all the digits that it may have. -/
theorem takes_number_padded {width least n : Nat} {range : Nat × Nat} (positive : 0 < width) (least_le : least ≤ width)
    (fits : n < 10 ^ width) (inside : range.1 ≤ n ∧ n ≤ range.2) :
    (number least width range).Takes (padded width n) n rest := by
  have length := length_padded positive fits
  have taken : (number least width range).Takes (padded width n) (value (padded width n)) rest :=
    takes_number (fun _ mem => isDigit_of_mem_padded mem) (by omega) (by omega) (.inl length) (by rwa [value_padded])
  rwa [value_padded] at taken

theorem takes_twoDigits {n : Nat} {range : Nat × Nat} (fits : n < 100) (inside : range.1 ≤ n ∧ n ≤ range.2) :
    (number 2 2 range).Takes (padded 2 n) n rest :=
  takes_number_padded (by decide) (by decide) fits inside

/-- A text of digits begins with no white space. -/
theorem takes_blanks_digits (digits : ∀ c ∈ ds, c.isDigit = true) (nonempty : ds ≠ []) :
    blanks.Takes [] () (ds ++ rest) := by
  obtain ⟨c, tail, rfl⟩ := List.exists_cons_of_ne_nil nonempty
  refine takes_blanks fun d mem => ?_
  cases mem
  exact Text.isBlank_of_isDigit (digits c List.mem_cons_self)

theorem takes_shortNumber {n : Nat} {range : Nat × Nat} (fits : n < 100) (inside : range.1 ≤ n ∧ n ≤ range.2) :
    (shortNumber range).Takes (padded 2 n) n rest :=
  (takes_blanks_digits (fun _ mem => isDigit_of_mem_padded mem) (padded_ne_nil 2 n)).after
    (takes_number_padded (by decide) (by decide) fits inside)

/-! ## Dates -/

/-- A year that begins with a digit has no sign. -/
theorem signedYear_of_isDigit {c : Char} (digit : c.isDigit = true) (text : List Char) :
    signedYear (c :: text) = do return (← numberOf 1 (← digitsUpTo 4) : Int) := by
  unfold signedYear
  split
  · next sign =>
    cases sign
    exact absurd digit (by decide)
  · next sign =>
    cases sign
    exact absurd digit (by decide)
  · rfl

theorem takes_signedYear (y : Int) (ends : EndsDigits rest) :
    (signedYear (yearText y ++ rest)).Takes (yearText y) y rest := by
  have digits : ∀ {width n : Nat}, ∀ c ∈ padded width n, c.isDigit = true := fun _ mem => isDigit_of_mem_padded mem
  -- behind a sign there are as many digits as there are
  have signed : ∀ {c : Char} {n : Nat} {f : Nat → Int}, f n = y →
      (do set (padded 4 n ++ rest); return f (← numberOf 1 (← allDigits)) : Reader Int).Takes
        (c :: padded 4 n) y rest := by
    intro c n f same
    have positive := List.length_pos_iff.2 (padded_ne_nil 4 n)
    refine (takes_set c).bind
      ((takes_allDigits digits ends).last ((takes_numberOf positive).last ?_))
    rw [value_padded, same]
    exact takes_pure y
  unfold yearText
  split
  · next plain =>
    have length : (padded 4 y.toNat).length = 4 := length_padded (by decide) (by omega)
    obtain ⟨c, tail, eq⟩ := List.exists_cons_of_ne_nil (padded_ne_nil 4 y.toNat)
    have unsigned := signedYear_of_isDigit (digits c (eq ▸ List.mem_cons_self)) (tail ++ rest)
    rw [← List.cons_append, ← eq] at unsigned
    rw [unsigned]
    refine (takes_digitsUpTo digits (by omega) (.inl length)).last ((takes_numberOf (by omega)).last ?_)
    rw [value_padded, Int.toNat_of_nonneg plain.1]
    exact takes_pure y
  · split
    · exact signed (f := fun n => -(n : Int)) (by omega)
    · exact signed (f := fun n => (n : Int)) (by omega)

theorem yearText_ne_nil (y : Int) : yearText y ≠ [] := by
  unfold yearText
  split
  · exact padded_ne_nil _ _
  · exact List.cons_ne_nil _ _

theorem takes_year {y : Int} (fits : -2147483648 ≤ y ∧ y ≤ 2147483647) (ends : EndsDigits rest) :
    year.Takes (yearText y) y rest := by
  have first : blanks.Takes [] () (yearText y ++ rest) := by
    obtain ⟨c, tail, eq⟩ := List.exists_cons_of_ne_nil (yearText_ne_nil y)
    rw [eq]
    refine takes_blanks fun d mem => ?_
    cases mem
    rcases mem_yearText (eq ▸ List.mem_cons_self) with digit | rfl | rfl
    · exact Text.isBlank_of_isDigit digit
    · decide
    · decide
  refine first.after (takes_get.after ((takes_signedYear y ends).last ?_))
  rw [if_pos fits]
  exact takes_pure y

/-- The parts of a date are taken from its text. -/
theorem takes_dateFields {d : Date} (supported : d.isSupported = true) :
    dateFields.Takes d.chars (d.year, d.month, d.day) rest := by
  have year : -2147483648 ≤ d.year ∧ d.year ≤ 2147483647 := by
    simp only [Date.isSupported, decide_eq_true_eq] at supported
    omega
  have fields := d.fields_mem
  have ends : ∀ {text : List Char}, EndsDigits ('-' :: text) := by
    rintro text c ⟨⟩
    rfl
  rw [Date.chars, List.append_assoc]
  exact (takes_year year ends).bind ((takes_char '-').bind
    ((takes_shortNumber (by omega) (by omega)).bind ((takes_char '-').bind
      ((takes_shortNumber (by omega) (by omega)).last (takes_pure _)))))

theorem dateOf_eq {d : Date} (supported : d.isSupported = true) : dateOf d.year d.month d.day = .ok d := by
  have found : Date.of? d.year d.month d.day = some d := by
    simp only [Date.of?, dif_pos d.month_mem, dif_pos d.day_mem]
  rw [dateOf, found, Option.filter_some_pos supported]

/-- A date that there is needs no more text. -/
theorem takes_dateOf {d : Date} (supported : d.isSupported = true) :
    Takes (liftM (dateOf d.year d.month d.day)) [] d rest := by
  rw [dateOf_eq supported]
  exact takes_pure d

/-! ## Times -/

/-- Whether a text goes on neither with a digit nor with a point. -/
def EndsFraction (rest : List Char) : Prop :=
  ∀ c ∈ rest.head?, c.isDigit = false ∧ c ≠ '.'

/-- A fraction is left out, or has a point and up to nine digits behind it. -/
theorem fractionText_cases {nanos : Nat} (small : nanos < 1000000000) :
    nanos = 0 ∨
      ∃ ds, fractionText nanos = '.' :: ds ∧ (∀ c ∈ ds, c.isDigit = true) ∧ 1 ≤ ds.length ∧ ds.length ≤ 9 := by
  have digits : ∀ {width n : Nat}, 0 < width → width ≤ 9 → n < 10 ^ width →
      (∀ c ∈ padded width n, c.isDigit = true) ∧ 1 ≤ (padded width n).length ∧ (padded width n).length ≤ 9 := by
    intro width n positive short fits
    have length := length_padded positive fits
    exact ⟨fun _ mem => isDigit_of_mem_padded mem, by omega, by omega⟩
  unfold fractionText
  split
  · exact .inl ‹_›
  split
  · exact .inr ⟨_, rfl, digits (by decide) (by decide) (by omega)⟩
  split
  · exact .inr ⟨_, rfl, digits (by decide) (by decide) (by omega)⟩
  · exact .inr ⟨_, rfl, digits (by decide) (by decide) small⟩

theorem takes_fraction {nanos : Nat} (small : nanos < 1000000000) (ends : EndsFraction rest) :
    fraction.Takes (fractionText nanos) nanos rest := by
  have written := value_fractionText small
  rcases fractionText_cases small with rfl | ⟨ds, text, digits, enough, short⟩
  · show fraction.Takes [] 0 rest
    refine takes_get.after ?_
    split
    · next point =>
      have begins : rest = '.' :: _ := point
      exact absurd rfl (ends '.' (by rw [begins]; rfl)).2
    · exact takes_pure 0
  · rw [text] at written ⊢
    have endsDigits : EndsDigits rest := fun c mem => (ends c mem).1
    -- all of the digits are among the first nine, so none are dropped
    have none : allDigits.Takes [] [] rest := takes_allDigits nofun endsDigits
    refine takes_get.after ((takes_set '.').bind
      ((takes_digitsUpTo digits short (.inr endsDigits)).last
        ((takes_numberOf enough).last (none.last ?_))))
    rw [← written]
    exact takes_pure _

/-- The second and the nanoseconds of a leap second are found again. -/
theorem takes_timeOf {t : TimeOfDay} (regular : t.isRegular = true) :
    (timeOf t.hour t.minute (t.second + t.nanos / 1000000000) (t.nanos % 1000000000)).Takes [] t rest := by
  rw [TimeOfDay.isRegular_iff] at regular
  have small := t.nanos_lt
  have second : t.second = t.seconds % 60 := rfl
  have same : min (t.second + t.nanos / 1000000000) 59 = t.second := by omega
  have nanos : t.nanos % 1000000000 + (if t.second + t.nanos / 1000000000 = 60 then 1000000000 else 0) = t.nanos := by
    split <;> omega
  rw [timeOf, same, nanos, TimeOfDay.of?_hour_minute_second]
  exact takes_pure t

/-- A regular time is taken from its text, up to something that is no part of a fraction. -/
theorem takes_timeToSecond {t : TimeOfDay} (regular : t.isRegular = true) (ends : EndsFraction rest) :
    timeToSecond.Takes t.chars t rest := by
  have fields := t.fields_le
  simp only [TimeOfDay.chars, List.append_assoc, List.cons_append]
  exact (takes_shortNumber (by omega) (by omega)).bind ((takes_char ':').bind
    ((takes_shortNumber (by omega) (by omega)).bind ((takes_char ':').bind
      ((takes_shortNumber (by omega) (by omega)).bind
        ((takes_fraction (by omega) ends).last (takes_timeOf regular))))))

/-- A regular date-time is taken from its text. -/
theorem takes_dateTimeWith {l : LocalDateTime} (supported : l.date.isSupported = true)
    (regular : l.time.isRegular = true) (ends : EndsFraction rest) :
    (dateTimeWith (char 'T')).Takes (l.charsWith 'T') l rest :=
  (takes_dateFields supported).bind ((takes_char 'T').bind
    ((takes_timeToSecond regular ends).last ((takes_dateOf supported).after (takes_pure l))))

/-! ## Instants -/

/-- The number of seconds is found again from the sign, the hours and the minutes. -/
theorem of?_sign {o : Offset} (regular : o.isRegular = true) {hours minutes : Nat}
    (hours_eq : hours = (o.seconds.natAbs + 30) / 60 / 60) (minutes_eq : minutes = (o.seconds.natAbs + 30) / 60 % 60) :
    let seconds : Int := 3600 * hours + 60 * minutes
    Offset.of? (if (if o.seconds < 0 then '-' else '+') = '+' then seconds else -seconds) = some o := by
  intro seconds
  simp only [Offset.isRegular, decide_eq_true_eq] at regular
  have same : (if (if o.seconds < 0 then '-' else '+') = '+' then seconds else -seconds) = o.seconds := by
    by_cases negative : o.seconds < 0
    · rw [if_pos negative, if_neg (by decide)]
      omega
    · rw [if_neg negative, if_pos rfl]
      omega
  rw [same, Offset.of?, dif_pos o.seconds_lt]

/-- An offset of whole minutes is taken from its text. -/
theorem takes_offset {o : Offset} (regular : o.isRegular = true) : (offset (char ':')).Takes o.chars o rest := by
  have small := o.seconds_lt
  have sign : (if o.seconds < 0 then '-' else '+') ∈ ['+', '-', '\u2212'] := by
    split <;> decide
  rw [Offset.chars]
  refine (takes_oneOf sign).bind ((takes_twoDigits (by omega) (by omega)).bind
    ((takes_char ':').bind ((takes_twoDigits (by omega) (by omega)).last ?_)))
  simp only [of?_sign regular rfl rfl]
  exact takes_pure o

/-- The text of an offset begins with a sign. -/
theorem chars_append (o : Offset) (rest : List Char) :
    ∃ tail, o.chars ++ rest = '-' :: tail ∨ o.chars ++ rest = '+' :: tail := by
  rw [Offset.chars]
  split
  · exact ⟨_, .inl rfl⟩
  · exact ⟨_, .inr rfl⟩

/-- No fraction goes on with an offset. -/
theorem endsFraction_offset {o : Offset} : EndsFraction (o.chars ++ rest) := by
  obtain ⟨tail, begins | begins⟩ := chars_append o rest
  · rw [begins]
    rintro c ⟨⟩
    decide
  · rw [begins]
    rintro c ⟨⟩
    decide

theorem takes_zuluOrOffset {o : Offset} (regular : o.isRegular = true) : zuluOrOffset.Takes o.chars o rest := by
  obtain ⟨tail, begins⟩ := chars_append o rest
  refine takes_get.after ?_
  -- a sign is not the letter of UTC
  split
  · next zulu => simp [zulu] at begins
  · next zulu => simp [zulu] at begins
  · exact takes_offset regular

/-- A regular instant is taken from its text if its year has four digits. -/
theorem takes_instant {i : OffsetDateTime} (regular : i.isRegular = true)
    (year : 0 ≤ i.toLocal.date.year ∧ i.toLocal.date.year ≤ 9999) : instant.Takes i.chars i rest := by
  have found := OffsetDateTime.ofLocal?_toLocal (OffsetDateTime.isSupported_of_year year)
  have regularTime := OffsetDateTime.isRegular_toLocal regular
  have regularOffset : i.offset.isRegular = true := (Bool.and_eq_true_iff.1 regular).2
  rw [OffsetDateTime.chars]
  generalize i.toLocal = l at found regularTime year
  have supportedDate : l.date.isSupported = true := by
    simp only [Date.isSupported, decide_eq_true_eq]
    omega
  obtain ⟨y, positive⟩ := Int.eq_ofNat_of_zero_le year.1
  have text : yearText l.date.year = padded 4 y := by
    rw [yearText, if_pos year, positive, Int.toNat_natCast]
  have dateFields := l.date.fields_mem
  have timeFields := l.time.fields_le
  simp only [LocalDateTime.charsWith, Date.chars, TimeOfDay.chars, text, List.append_assoc, List.cons_append]
  refine (takes_number_padded (by decide) (by decide) (by omega) (by omega)).bind ((takes_char '-').bind
    ((takes_twoDigits (by omega) (by omega)).bind ((takes_char '-').bind
      ((takes_twoDigits (by omega) (by omega)).bind ((takes_oneOf (by decide)).bind
        ((takes_twoDigits (by omega) (by omega)).bind ((takes_char ':').bind
          ((takes_twoDigits (by omega) (by omega)).bind ((takes_char ':').bind
            ((takes_twoDigits (by omega) (by omega)).bind
              ((takes_fraction (by omega) endsFraction_offset).bind
                ((takes_zuluOrOffset regularOffset).last ?_))))))))))))
  rw [← positive]
  refine (takes_dateOf supportedDate).after ((takes_timeOf regularTime).after ?_)
  simp only [found]
  exact takes_pure i

end Reader

/-! ## Whole texts -/

/-- A supported date is read back from its text. -/
theorem Date.read_chars {d : Date} (supported : d.isSupported = true) : Date.read d.chars = .ok d := by
  rw [Date.read, Reader.whole_eq (Reader.takes_dateFields supported)]
  exact Reader.dateOf_eq supported

/-- A regular time is read back from its text. -/
theorem TimeOfDay.read?_chars {t : TimeOfDay} (regular : t.isRegular = true) : read? t.chars = some t := by
  rw [read?, Reader.whole?_eq (Reader.takes_timeToSecond regular nofun), Option.some_or]

/-- A regular date-time is read back from its text. -/
theorem LocalDateTime.read?_charsWith {l : LocalDateTime} (supported : l.date.isSupported = true)
    (regular : l.time.isRegular = true) : read? (l.charsWith 'T') = some l := by
  rw [read?, Reader.whole?_eq (Reader.takes_dateTimeWith supported regular nofun), Option.some_or]

/-- A regular instant is read back from its text, together with its offset, if its year has four digits. -/
theorem OffsetDateTime.read?_chars {i : OffsetDateTime} (regular : i.isRegular = true)
    (year : 0 ≤ i.toLocal.date.year ∧ i.toLocal.date.year ≤ 9999) : read? i.chars = some i :=
  Reader.whole?_eq (Reader.takes_instant regular year)

end FieldBinding
