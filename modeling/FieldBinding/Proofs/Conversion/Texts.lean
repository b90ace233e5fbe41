import Mathlib
import FieldBinding.Proofs.Calendar.RoundTrip
import FieldBinding.Proofs.Conversion.Landing

/-!
# Dates and times that come back from their texts

A scalar is *legible* if it is a date or a time whose text says all of it: the date is supported, a leap second stands
at the end of its minute, and an instant has an offset of whole minutes and a year of four digits at that offset.  The
text holds no white space, so trimming leaves it alone, and it says everything that is read, so the zone is never asked.

Main results:

* `Conversion.textToDate_text`, `Conversion.textToTime_text`, `Conversion.textToLocalDateTime_text`,
  `Conversion.textToDateTime_text` — what is read from the text of a date or a time.
* `Graph.convert_text_back` — a legible scalar comes back from its text, in any zone.
-/

namespace FieldBinding

/-- Whether a scalar is a date or a time whose text says all of it. -/
def Scalar.isLegible : Scalar → Bool
  | .date d => d.isSupported
  | .time t => t.isRegular
  | .localDateTime l => l.date.isSupported && l.time.isRegular
  | .dateTime i => i.isRegular && decide (0 ≤ i.toLocal.date.year ∧ i.toLocal.date.year ≤ 9999)
  | _ => false

/-! ## Texts without white space -/

open Text (isBlank)

variable {c : Char}

theorem Date.not_blank {d : Date} (h : c ∈ d.chars) : isBlank c = false := by
  rcases mem_chars h with digit | rfl | rfl
  · exact Text.isBlank_of_isDigit digit
  · decide
  · decide

theorem TimeOfDay.not_blank {t : TimeOfDay} (h : c ∈ t.chars) : isBlank c = false := by
  rcases mem_chars h with digit | rfl | rfl
  · exact Text.isBlank_of_isDigit digit
  · decide
  · decide

theorem LocalDateTime.not_blank {l : LocalDateTime} (h : c ∈ l.charsWith 'T') : isBlank c = false := by
  rcases List.mem_append.1 h with date | rest
  · exact Date.not_blank date
  · rcases List.mem_cons.1 rest with rfl | time
    · decide
    · exact TimeOfDay.not_blank time

theorem Offset.not_blank {o : Offset} (h : c ∈ o.chars) : isBlank c = false := by
  have digits : ∀ {width n : Nat}, c ∈ Numeral.padded width n → isBlank c = false := fun mem =>
    Text.isBlank_of_isDigit (Numeral.isDigit_of_mem_padded mem)
  simp only [chars, List.cons_append, List.mem_cons, List.mem_append] at h
  rcases h with sign | hours | rfl | minutes
  · rw [sign]
    split <;> decide
  · exact digits hours
  · decide
  · exact digits minutes

theorem OffsetDateTime.not_blank {i : OffsetDateTime} (h : c ∈ i.chars) : isBlank c = false := by
  rcases List.mem_append.1 h with moment | offset
  · exact LocalDateTime.not_blank moment
  · exact Offset.not_blank offset

namespace Conversion

/-- A text without white space is trimmed to itself. -/
theorem trimmedText_ofList {cs : List Char} (h : ∀ c ∈ cs, isBlank c = false) :
    trimmedText (.scalar (.string (String.ofList cs))) = .ok (String.ofList cs) :=
  congrArg Except.ok (Text.trimmed_of_not_blank (by rwa [String.toList_ofList]))

/-! ## What is read -/

theorem textToDate_text {d : Date} (supported : d.isSupported = true) :
    textToDate (.scalar (.string d.text)) = .ok (.date d) := by
  have read := Date.read_chars supported
  rw [textToDate, Date.text, trimmedText_ofList fun _ => Date.not_blank]
  simp only [bind, Except.bind, String.toList_ofList, read]

theorem textToTime_text {t : TimeOfDay} (regular : t.isRegular = true) :
    textToTime (.scalar (.string t.text)) = .ok (.time t) := by
  have read := TimeOfDay.read?_chars regular
  rw [textToTime, TimeOfDay.text, trimmedText_ofList fun _ => TimeOfDay.not_blank]
  simp only [bind, Except.bind, String.toList_ofList, read]

theorem textToLocalDateTime_text {l : LocalDateTime} (supported : l.date.isSupported = true)
    (regular : l.time.isRegular = true) :
    textToLocalDateTime (.scalar (.string l.text)) = .ok (.localDateTime l) := by
  have read := LocalDateTime.read?_charsWith supported regular
  rw [textToLocalDateTime, LocalDateTime.text, trimmedText_ofList fun _ => LocalDateTime.not_blank]
  simp only [bind, Except.bind, String.toList_ofList, read]

/-- The text of an instant has an offset of its own, so no zone is looked up. -/
theorem textToDateTime_text (zone : Zone) {i : OffsetDateTime} (regular : i.isRegular = true)
    (year : 0 ≤ i.toLocal.date.year ∧ i.toLocal.date.year ≤ 9999) :
    textToDateTime zone (.scalar (.string i.text)) = .ok (.dateTime i) := by
  have read := OffsetDateTime.read?_chars regular year
  rw [textToDateTime, OffsetDateTime.text, trimmedText_ofList fun _ => OffsetDateTime.not_blank]
  simp only [bind, Except.bind, String.toList_ofList, read]
  rfl

end Conversion

namespace Graph

open Conversion

/-- A legible date or time comes back from its text, whatever zones are given on the way: a date, a time of day, a
date-time, and an instant with its offset. -/
theorem convert_text_back (g g' : Graph) (zone zone' : Zone) {s : Scalar} (legible : s.isLegible = true) :
    ∃ text, g.convert zone (.scalar s) none (.scalar .string) = .ok (.scalar (.string text)) ∧
      g'.convert zone' (.scalar (.string text)) none (.scalar s.kind) = .ok (.scalar s) := by
  refine ⟨s.text, convert_text g zone s, ?_⟩
  cases s with
  | date d => exact convert_of_rule g' rfl (textToDate_text legible)
  | time t => exact convert_of_rule g' rfl (textToTime_text legible)
  | localDateTime l =>
    obtain ⟨supported, regular⟩ := Bool.and_eq_true_iff.1 legible
    exact convert_of_rule g' rfl (textToLocalDateTime_text supported regular)
  | dateTime i =>
    obtain ⟨regular, year⟩ := Bool.and_eq_true_iff.1 legible
    exact convert_of_rule g' rfl (textToDateTime_text zone' regular (of_decide_eq_true year))
  | _ => cases legible

/-- An instant in the middle of a leap second of the year zero; a name that no zone has is not looked at. -/
theorem convert_text_back_year_zero :
    let i : OffsetDateTime := ⟨⟨⟨0, 1, 1, by decide, by decide⟩, ⟨3599, 1500000000, by decide, by decide⟩⟩,
      ⟨-1800, by decide⟩⟩
    empty.convert .utc (.scalar (.dateTime i)) none (.scalar .string) =
        .ok (.scalar (.string "0000-01-01T00:29:60.500-00:30")) ∧
      empty.convert (.named "nowhere") (.scalar (.string "0000-01-01T00:29:60.500-00:30")) none (.scalar .dateTime) =
        .ok (.scalar (.dateTime i)) := by
  intro i
  obtain ⟨text, written, read⟩ := convert_text_back empty empty .utc (.named "nowhere") (s := .dateTime i) (by decide)
  have shown : empty.convert .utc (.scalar (.dateTime i)) none (.scalar .string) =
      .ok (.scalar (.string "0000-01-01T00:29:60.500-00:30")) := by cbv
  cases written.symm.trans shown
  exact ⟨shown, read⟩

end Graph

end FieldBinding
