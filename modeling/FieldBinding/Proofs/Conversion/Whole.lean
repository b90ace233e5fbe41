import Mathlib
import FieldBinding.Proofs.Conversion.Loss

/-!
# Conversions between whole numbers

Truth values, characters and integers stand for whole numbers, and six kinds have room for some of them each.  A
conversion keeps the number and fails where the target has no room for it.  So a chain of conversions that succeeds
is the conversion from its first kind to its last, and a value comes back from every kind that it has been converted
to, and from its text.

A character can be greater than the sixteen bits for which its kind has room.  Such a character has no way back.

Main results:

* `Graph.convert_whole_iff` — what a whole number is converted to.
* `Graph.convert_trans` — two conversions after one another are one.
* `Graph.convert_whole` — all of it, with the text of a number and the declared concerns.
-/

namespace FieldBinding

/-! ## Numbers and room for them -/

/-- The whole number that a scalar stands for: zero or one, the code of a character, or an integer. -/
def Scalar.whole? : Scalar → Option Int
  | .bool b => some (if b then 1 else 0)
  | .char c => some c.toNat
  | .integer _ i => some i.toInt
  | _ => none

/-- Whether a kind has room for a whole number.  Characters have sixteen bits, and surrogates are no characters. -/
def PrimitiveKind.Admits : PrimitiveKind → Int → Prop
  | .boolean, i => 0 ≤ i ∧ i ≤ 1
  | .char, i => (0 ≤ i ∧ i ≤ 0xFFFF) ∧ ¬(0xD800 ≤ i ∧ i ≤ 0xDFFF)
  | .integer kind, i => kind.least ≤ i ∧ i ≤ kind.greatest
  | .float, _ | .double, _ => False

/-- Whether a kind is one of those that whole numbers are converted to: characters and integers. -/
def PrimitiveKind.isIntegral (kind : PrimitiveKind) : Bool :=
  (ScalarKind.primitive kind).isIntegral

/-- Whether a scalar is a character of more than sixteen bits. -/
def Scalar.IsWide : Scalar → Prop
  | .char c => 0xFFFF < c.toNat
  | _ => False

theorem PrimitiveKind.isIntegral_iff {kind : PrimitiveKind} :
    kind.isIntegral = true ↔ kind = .char ∨ ∃ width, kind = .integer width := by
  cases kind <;> simp [isIntegral, ScalarKind.isIntegral]

namespace Conversion

variable {s t a : Scalar} {source target : PrimitiveKind} {i : Int}

theorem number_eq_whole_iff : number (.scalar s) = .ok (.whole i) ↔ s.whole? = some i := by
  cases s <;> simp [number, Scalar.whole?, unexpected]

/-- A whole number and its kind make the scalar. -/
theorem whole?_inj (alike : s.kind = t.kind) (hs : s.whole? = some i) (ht : t.whole? = some i) : s = t := by
  have number : ∀ {u : Scalar}, u.whole? = some i → u.isNaN = false := by
    intro u hu
    cases u <;> first | rfl | cases hu
  exact number_inj alike (number hs) (number ht) (number_eq_whole_iff.2 hs) (number_eq_whole_iff.2 ht)

/-- A character is no surrogate. -/
theorem not_surrogate (c : Char) : ¬(0xD800 ≤ c.toNat ∧ c.toNat ≤ 0xDFFF) := by
  have valid := c.valid
  simp only [UInt32.isValidChar, Nat.isValidChar] at valid
  show ¬(0xD800 ≤ c.val.toNat ∧ c.val.toNat ≤ 0xDFFF)
  omega

/-- The kind of a scalar has room for its number, unless it is a wide character. -/
theorem admits_iff_not_isWide (kind : s.kind = .primitive source) (number : s.whole? = some i) :
    source.Admits i ↔ ¬s.IsWide := by
  cases s with
  | bool b =>
    cases kind
    cases number
    cases b <;> simp [PrimitiveKind.Admits, Scalar.IsWide]
  | char c =>
    cases kind
    cases number
    have valid := not_surrogate c
    simp only [PrimitiveKind.Admits, Scalar.IsWide]
    omega
  | integer width n =>
    cases kind
    cases number
    exact iff_of_true n.fits id
  | _ => cases number

theorem charOf_eq_ok_iff {code : Nat} (bound : code ≤ 0xFFFF) :
    charOf code = .ok a ↔ ∃ c : Char, a = .char c ∧ c.toNat = code := by
  unfold charOf
  split
  · next surrogate =>
    constructor
    · intro h
      cases h
    · rintro ⟨c, -, rfl⟩
      exact absurd surrogate (not_surrogate c)
  · next plain =>
    have valid : code.isValidChar := by
      simp only [Nat.isValidChar]
      omega
    constructor
    · intro h
      cases h
      exact ⟨_, rfl, toNat_ofNat valid⟩
    · rintro ⟨c, rfl, rfl⟩
      rw [Char.ofNat_toNat]

/-- What a whole number becomes in a kind of characters or integers: the scalar of the kind with that number, if the
kind has room for it. -/
theorem ofNumber_eq_ok_iff (integral : target.isIntegral = true) :
    ofNumber target (.whole i) = .ok a ↔ a.kind = .primitive target ∧ a.whole? = some i ∧ target.Admits i := by
  constructor
  · intro h
    have kind := ofNumber_lands target _ a h
    have number := number_eq_whole_iff.1 (number_ofNumber (PrimitiveKind.isIntegral_iff.1 integral) h)
    refine ⟨kind, number, (admits_iff_not_isWide kind number).2 ?_⟩
    rcases PrimitiveKind.isIntegral_iff.1 integral with rfl | ⟨width, rfl⟩
    · -- only codes of sixteen bits get as far as a character
      obtain ⟨j, hj, -⟩ := bind_eq_ok h
      obtain ⟨rfl, low, high⟩ := wholeIn_eq_ok hj
      cases a with
      | char c =>
        cases number
        simp only [Scalar.IsWide]
        omega
      | _ => cases kind
    · cases a <;> first | exact id | cases kind
  · rintro ⟨kind, number, room⟩
    rcases PrimitiveKind.isIntegral_iff.1 integral with rfl | ⟨width, rfl⟩
    · obtain ⟨low, high⟩ := room.1
      have whole : ofNumber .char (.whole i) = charOf i.toNat := by
        simp only [ofNumber, wholeIn_whole .char room.1]
        rfl
      rw [whole, charOf_eq_ok_iff (by omega)]
      cases a with
      | char c =>
        cases number
        exact ⟨c, rfl, rfl⟩
      | _ => cases kind
    · rw [ofNumber_integer room]
      cases a with
      | integer width' n =>
        cases kind
        cases number
        rfl
      | _ => cases kind

/-- Where a kind has room for a whole number it has a scalar with this number. -/
theorem exists_of_admits (integral : target.isIntegral = true) (room : target.Admits i) :
    ∃ a : Scalar, a.kind = .primitive target ∧ a.whole? = some i := by
  rcases PrimitiveKind.isIntegral_iff.1 integral with rfl | ⟨width, rfl⟩
  · obtain ⟨⟨low, high⟩, plain⟩ := room
    have valid : i.toNat.isValidChar := by
      simp only [Nat.isValidChar]
      omega
    refine ⟨.char (Char.ofNat i.toNat), rfl, ?_⟩
    rw [Scalar.whole?, toNat_ofNat valid, Int.toNat_of_nonneg low]
  · exact ⟨.integer width ⟨i, room⟩, rfl, rfl⟩

/-- Where a range is declared, there is a value of the source that the target has no room for: the least integer, or the
greatest character of sixteen bits. -/
theorem exists_not_admits (whole : source = .boolean ∨ source.isIntegral = true) (integral : target.isIntegral = true)
    (declared : Concern.range ∈ primitiveConcerns source target) :
    ∃ (s : Scalar) (i : Int), s.kind = .primitive source ∧ s.whole? = some i ∧ ¬target.Admits i := by
  cases source with
  | boolean =>
    rcases PrimitiveKind.isIntegral_iff.1 integral with rfl | ⟨width, rfl⟩
    · exact absurd declared (by decide)
    · exact absurd declared (by cases width <;> decide)
  | char =>
    refine ⟨.char (Char.ofNat 0xFFFF), 0xFFFF, rfl, rfl, fun room => ?_⟩
    rcases PrimitiveKind.isIntegral_iff.1 integral with rfl | ⟨width, rfl⟩
    · exact absurd declared (by decide)
    · cases width <;> first
        | exact absurd declared (by decide)
        | exact absurd room.2 (by decide)
  | integer width =>
    refine ⟨.integer width ⟨width.least, le_rfl, by cases width <;> decide⟩, width.least, rfl, rfl, fun room => ?_⟩
    rcases PrimitiveKind.isIntegral_iff.1 integral with rfl | ⟨width', rfl⟩
    · exact absurd room.1.1 (by cases width <;> decide)
    · cases width <;> cases width' <;> first
        | exact absurd declared (by decide)
        | exact absurd room.1 (by decide)
  | float => simp [PrimitiveKind.isIntegral, ScalarKind.isIntegral] at whole
  | double => simp [PrimitiveKind.isIntegral, ScalarKind.isIntegral] at whole

/-! ## Texts of whole numbers -/

theorem trimmed_signedText (i : Int) : Text.trimmed (Numeral.signedText i) = Numeral.signedText i := by
  have digit : ∀ c ∈ Numeral.digits i.natAbs, Text.isBlank c = false := fun c hc =>
    Text.isBlank_of_isDigit (Numeral.isDigit_of_mem_digits hc)
  refine Text.trimmed_of_not_blank fun c hc => ?_
  rw [Numeral.signedText, String.toList_ofList] at hc
  split at hc
  · rcases List.mem_cons.1 hc with rfl | hc
    · decide
    · exact digit c hc
  · exact digit c hc

/-- An integer of 64 bits is read back from its text. -/
theorem long?_signedText {i : Int} (fits : IntegerKind.long.least ≤ i ∧ i ≤ IntegerKind.long.greatest) :
    Numeral.long? (Numeral.signedText i).toList = some i := by
  have least : IntegerKind.long.least = -9223372036854775808 := rfl
  have greatest : IntegerKind.long.greatest = 9223372036854775807 := rfl
  rw [Numeral.long?, Numeral.integer?_signedText, Option.filter_some, if_pos]
  simp only [decide_eq_true_eq]
  omega

theorem fits_long {width : IntegerKind} (n : Bounded width) :
    IntegerKind.long.least ≤ n.toInt ∧ n.toInt ≤ IntegerKind.long.greatest := by
  have fits := n.fits
  cases width <;> simp only [IntegerKind.least, IntegerKind.greatest, IntegerKind.bits] at fits ⊢ <;> omega

/-- A scalar that stands for a whole number is read back from its text; a wide character is refused. -/
theorem textToPrimitive_text (kind : s.kind = .primitive source) (number : s.whole? = some i) :
    (¬s.IsWide → textToPrimitive source (.scalar (.string s.text)) = .ok s) ∧
      (s.IsWide → ∃ fault, textToPrimitive source (.scalar (.string s.text)) = .error fault ∧
        fault.concern = .range) := by
  cases s with
  | bool b =>
    cases kind
    refine ⟨fun _ => ?_, False.elim⟩
    cases b <;> cbv
  | char c =>
    cases kind
    have read : textToPrimitive .char (.scalar (.string (Scalar.char c).text)) =
        if c.toNat ≤ 0xFFFF then charOf c.toNat else .error (.beyondChar c) := by
      simp [textToPrimitive, readChar, Scalar.text]
    rw [read]
    constructor
    · intro narrow
      have bound : c.toNat ≤ 0xFFFF := by simpa [Scalar.IsWide] using narrow
      rw [if_pos bound, charOf_eq_ok_iff bound]
      exact ⟨c, rfl, rfl⟩
    · intro wide
      exact ⟨_, if_neg (Nat.not_le.2 wide), rfl⟩
  | integer width n =>
    cases kind
    refine ⟨fun _ => ?_, False.elim⟩
    have read : readNumber (.integer width) (Numeral.signedText n.toInt) = .ok (.whole n.toInt) := by
      simp only [readNumber, long?_signedText (fits_long n)]
    simp only [textToPrimitive, trimmedText, Scalar.text, trimmed_signedText]
    change (readNumber (.integer width) (Numeral.signedText n.toInt) >>= ofNumber (.integer width)) = _
    rw [read]
    exact ofNumber_integer n.fits
  | _ => cases number

end Conversion

/-! ## Conversions -/

namespace Graph

open Conversion

variable {g : Graph} {zone : Zone} {s t : Scalar} {source target : PrimitiveKind} {i : Int}

/-- A conversion to another kind of primitives goes by the number. -/
theorem convert_primitive (g : Graph) (zone : Zone) (kind : s.kind = .primitive source)
    (number : s.whole? = some i) (apart : source ≠ target) :
    g.convert zone (.scalar s) none (.scalar (.primitive target)) =
      match ofNumber target (.whole i) with
      | .ok a => .ok (.scalar a)
      | .error fault => .error ⟨.scalar (.primitive source), .scalar (.primitive target), fault⟩ := by
  have found : rule? s.kind (.primitive target) =
      some ⟨primitiveConcerns source target, fun _ _ => toPrimitive target⟩ := by
    rw [kind]
    exact if_neg apart
  have run : toPrimitive target (.scalar s) = ofNumber target (.whole i) := by
    rw [toPrimitive, number_eq_whole_iff.2 number]
    rfl
  cases made : ofNumber target (.whole i) <;> simp only [convert_eq_run g found, kind, run, made]

/-- What a whole number is converted to in another kind: the scalar of that kind with the same number, if the kind has
room for it. -/
theorem convert_whole_iff (kind : s.kind = .primitive source) (number : s.whole? = some i) (apart : source ≠ target)
    (integral : target.isIntegral = true) {u : Value} :
    g.convert zone (.scalar s) none (.scalar (.primitive target)) = .ok u ↔
      ∃ a, u = .scalar a ∧ a.kind = .primitive target ∧ a.whole? = some i ∧ target.Admits i := by
  rw [convert_primitive g zone kind number apart]
  constructor
  · intro h
    cases made : ofNumber target (.whole i) with
    | error fault =>
      rw [made] at h
      cases h
    | ok a =>
      rw [made] at h
      cases h
      exact ⟨a, rfl, (ofNumber_eq_ok_iff integral).1 made⟩
  · rintro ⟨a, rfl, becomes⟩
    rw [(ofNumber_eq_ok_iff integral).2 becomes]

/-- A whole number is converted exactly to the kinds that have room for it. -/
theorem convert_whole_ok_iff (kind : s.kind = .primitive source) (number : s.whole? = some i) (apart : source ≠ target)
    (integral : target.isIntegral = true) :
    (∃ u, g.convert zone (.scalar s) none (.scalar (.primitive target)) = .ok u) ↔ target.Admits i := by
  constructor
  · rintro ⟨u, made⟩
    obtain ⟨-, -, -, -, room⟩ := (convert_whole_iff kind number apart integral).1 made
    exact room
  · intro room
    obtain ⟨a, kind', number'⟩ := exists_of_admits integral room
    exact ⟨.scalar a, (convert_whole_iff kind number apart integral).2 ⟨a, rfl, kind', number', room⟩⟩

/-- A whole number that is not converted does not fit. -/
theorem convert_whole_error (kind : s.kind = .primitive source) (number : s.whole? = some i) (apart : source ≠ target)
    {e : ConversionError} (h : g.convert zone (.scalar s) none (.scalar (.primitive target)) = .error e) :
    e.fault.concern = .range := by
  rw [convert_primitive g zone kind number apart] at h
  cases made : ofNumber target (.whole i) with
  | ok a =>
    rw [made] at h
    cases h
  | error fault =>
    rw [made] at h
    cases h
    exact List.mem_singleton.1 (ofNumber_failsWith target _ fault made)

/-- Where a kind has no room for a whole number, the conversion fails for the range. -/
theorem convert_whole_refused (kind : s.kind = .primitive source) (number : s.whole? = some i)
    (apart : source ≠ target) (integral : target.isIntegral = true) (full : ¬target.Admits i) :
    ∃ e, g.convert zone (.scalar s) none (.scalar (.primitive target)) = .error e ∧ e.fault.concern = .range := by
  cases made : g.convert zone (.scalar s) none (.scalar (.primitive target)) with
  | ok u => exact absurd ((convert_whole_ok_iff kind number apart integral).1 ⟨u, made⟩) full
  | error e => exact ⟨e, rfl, convert_whole_error kind number apart made⟩

/-- A whole number always fits exactly where no range is declared. -/
theorem convert_whole_total_iff (whole : source = .boolean ∨ source.isIntegral = true) (apart : source ≠ target)
    (integral : target.isIntegral = true) :
    (∀ s : Scalar, s.kind = .primitive source →
        ∃ u, g.convert zone (.scalar s) none (.scalar (.primitive target)) = .ok u) ↔
      Concern.range ∉ concerns (.scalar (.primitive source)) (.scalar (.primitive target)) := by
  have rule : ruleBetween? (.scalar (.primitive source)) (.scalar (.primitive target)) =
      some ⟨primitiveConcerns source target, fun _ _ => toPrimitive target⟩ := if_neg apart
  have declared : concerns (.scalar (.primitive source)) (.scalar (.primitive target)) =
      primitiveConcerns source target := by
    simp [concerns, apart, rule]
  rw [declared]
  constructor
  · intro total range
    obtain ⟨s, i, kind, number, full⟩ := exists_not_admits whole integral range
    exact full ((convert_whole_ok_iff kind number apart integral).1 (total s kind))
  · intro total s kind
    obtain ⟨n, hn, value⟩ := number_scalar kind
    obtain ⟨i, rfl⟩ : ∃ i, n = .whole i := by
      cases source with
      | boolean | char | integer width => exact value.imp fun _ h => h.1
      | float | double => simp [PrimitiveKind.isIntegral, ScalarKind.isIntegral] at whole
    obtain ⟨a, made⟩ := ofNumber_total value apart total
    exact ⟨.scalar a, by rw [convert_primitive g zone kind (number_eq_whole_iff.1 hn) apart, made]⟩

/-- Two conversions after one another are one. -/
theorem convert_trans {middle : PrimitiveKind} (kind : s.kind = .primitive source) (number : s.whole? = some i)
    (integral : middle.isIntegral = true) (integral' : target.isIntegral = true) {u v : Value}
    (first : g.convert zone (.scalar s) none (.scalar (.primitive middle)) = .ok u)
    (second : g.convert zone u none (.scalar (.primitive target)) = .ok v) :
    g.convert zone (.scalar s) none (.scalar (.primitive target)) = .ok v := by
  by_cases apart : source = middle
  · subst apart
    rw [convert_of_kind g zone kind] at first
    cases first
    exact second
  obtain ⟨t, rfl, kind', number', room⟩ := (convert_whole_iff kind number apart integral).1 first
  by_cases apart' : middle = target
  · subst apart'
    rw [convert_of_kind g zone kind'] at second
    cases second
    exact first
  obtain ⟨a, rfl, kind'', number'', room'⟩ := (convert_whole_iff kind' number' apart' integral').1 second
  by_cases back : source = target
  · -- back where the chain began there is only one scalar with this number
    subst back
    rw [← whole?_inj (kind.trans kind''.symm) number number'', convert_of_kind g zone kind]
  · exact (convert_whole_iff kind number back integral').2 ⟨a, rfl, kind'', number'', room'⟩

/-- Converts a value to one kind of primitives after another. -/
def convertThrough (g : Graph) (zone : Zone) (v : Value) (targets : List PrimitiveKind) :
    Except ConversionError Value :=
  targets.foldlM (fun v target => g.convert zone v none (.scalar (.primitive target))) v

theorem convertThrough_concat (g : Graph) (zone : Zone) (v : Value) (targets : List PrimitiveKind)
    (target : PrimitiveKind) :
    g.convertThrough zone v (targets ++ [target]) =
      g.convertThrough zone v targets >>= fun u => g.convert zone u none (.scalar (.primitive target)) := by
  rw [convertThrough, List.foldlM_append]
  simp only [List.foldlM_cons, List.foldlM_nil, bind_pure]
  rfl

/-- A chain of conversions that succeeds is the conversion to its last kind. -/
theorem convert_of_convertThrough (kind : s.kind = .primitive source) (number : s.whole? = some i)
    {targets : List PrimitiveKind} (integral : ∀ middle ∈ targets, middle.isIntegral = true)
    (integral' : target.isIntegral = true) {v : Value}
    (chain : g.convertThrough zone (.scalar s) (targets ++ [target]) = .ok v) :
    g.convert zone (.scalar s) none (.scalar (.primitive target)) = .ok v := by
  induction targets using List.reverseRecOn generalizing target v with
  | nil => simpa [convertThrough] using chain
  | append_singleton targets middle ih =>
    rw [convertThrough_concat] at chain
    cases front : g.convertThrough zone (.scalar s) (targets ++ [middle]) with
    | error e =>
      rw [front] at chain
      cases chain
    | ok u =>
      rw [front] at chain
      have integral'' : middle.isIntegral = true := integral middle (by simp)
      have first := ih (fun m hm => integral m (List.mem_append_left _ hm)) integral'' front
      exact convert_trans kind number integral'' integral' first chain

/-- A text is converted to a primitive by reading it. -/
theorem convert_ofText (g : Graph) (zone : Zone) (text : String) (target : PrimitiveKind) :
    g.convert zone (.scalar (.string text)) none (.scalar (.primitive target)) =
      match textToPrimitive target (.scalar (.string text)) with
      | .ok a => .ok (.scalar a)
      | .error fault => .error ⟨.scalar .string, .scalar (.primitive target), fault⟩ := by
  have found : rule? (Scalar.string text).kind (.primitive target) =
      some ⟨textConcerns target, fun _ _ => textToPrimitive target⟩ := rfl
  cases read : textToPrimitive target (.scalar (.string text)) <;>
    simp only [convert_eq_run g found, Scalar.kind, read]

/-- A scalar that stands for a whole number is read back from its text; a wide character is refused. -/
theorem convert_ofText_text (kind : s.kind = .primitive source) (number : s.whole? = some i) :
    (¬s.IsWide → g.convert zone (.scalar (.string s.text)) none (.scalar (.primitive source)) = .ok (.scalar s)) ∧
      (s.IsWide → ∃ e, g.convert zone (.scalar (.string s.text)) none (.scalar (.primitive source)) = .error e ∧
        e.fault.concern = .range) := by
  obtain ⟨narrow, wide⟩ := textToPrimitive_text kind number
  rw [convert_ofText]
  refine ⟨fun h => by rw [narrow h], fun h => ?_⟩
  obtain ⟨fault, failed, range⟩ := wide h
  exact ⟨_, by rw [failed], range⟩

/-- A whole number that has been converted comes back; a wide character is refused. -/
theorem convert_back (kind : s.kind = .primitive source) (number : s.whole? = some i) (apart : source ≠ target)
    (integral : source.isIntegral = true) (integral' : target.isIntegral = true) {u : Value}
    (made : g.convert zone (.scalar s) none (.scalar (.primitive target)) = .ok u) :
    (¬s.IsWide → g.convert zone u none (.scalar (.primitive source)) = .ok (.scalar s)) ∧
      (s.IsWide → ∃ e, g.convert zone u none (.scalar (.primitive source)) = .error e ∧
        e.fault.concern = .range) := by
  obtain ⟨t, rfl, kind', number', -⟩ := (convert_whole_iff kind number apart integral').1 made
  have room := admits_iff_not_isWide kind number
  constructor
  · intro narrow
    exact (convert_whole_iff kind' number' apart.symm integral).2 ⟨s, rfl, kind, number, room.2 narrow⟩
  · intro wide
    exact convert_whole_refused kind' number' apart.symm integral fun h => room.1 h wide

/-- Conversions between whole numbers are exact.  A whole number is converted to another kind of characters or integers
exactly if the kind has room for it, becomes the scalar with the same number, and fails for the range otherwise; no
value fails exactly where no range is declared; and an integer or a character comes back.  A chain of such conversions
that succeeds is the conversion to its last kind.  A whole number comes back from its text.  Only a character of more
than sixteen bits has no way back. -/
theorem convert_whole (g : Graph) (zone : Zone) {s : Scalar} {source : PrimitiveKind} {i : Int}
    (kind : s.kind = .primitive source) (number : s.whole? = some i) :
    (∀ target : PrimitiveKind, target.isIntegral = true → source ≠ target →
        ((∃ u, g.convert zone (.scalar s) none (.scalar (.primitive target)) = .ok u) ↔ target.Admits i) ∧
        (∀ u, g.convert zone (.scalar s) none (.scalar (.primitive target)) = .ok u →
          (∃ t, u = .scalar t ∧ t.kind = .primitive target ∧ t.whole? = some i) ∧
          (source ≠ .boolean →
            (¬s.IsWide → g.convert zone u none (.scalar (.primitive source)) = .ok (.scalar s)) ∧
            (s.IsWide → ∃ e, g.convert zone u none (.scalar (.primitive source)) = .error e ∧
              e.fault.concern = .range))) ∧
        (∀ e, g.convert zone (.scalar s) none (.scalar (.primitive target)) = .error e → e.fault.concern = .range) ∧
        ((∀ s' : Scalar, s'.kind = .primitive source →
            ∃ u, g.convert zone (.scalar s') none (.scalar (.primitive target)) = .ok u) ↔
          Concern.range ∉ concerns (.scalar (.primitive source)) (.scalar (.primitive target)))) ∧
      (∀ (targets : List PrimitiveKind) (target : PrimitiveKind), (∀ middle ∈ targets, middle.isIntegral = true) →
        target.isIntegral = true → ∀ v, g.convertThrough zone (.scalar s) (targets ++ [target]) = .ok v →
          g.convert zone (.scalar s) none (.scalar (.primitive target)) = .ok v) ∧
      ∃ text, g.convert zone (.scalar s) none (.scalar .string) = .ok (.scalar (.string text)) ∧
        (¬s.IsWide →
          g.convert zone (.scalar (.string text)) none (.scalar (.primitive source)) = .ok (.scalar s)) ∧
        (s.IsWide → ∃ e, g.convert zone (.scalar (.string text)) none (.scalar (.primitive source)) = .error e ∧
          e.fault.concern = .range) := by
  have whole : source = .boolean ∨ source.isIntegral = true := by
    cases s with
    | bool b => exact .inl (ScalarKind.primitive.inj kind).symm
    | char c => exact .inr (ScalarKind.primitive.inj kind ▸ rfl)
    | integer width n => exact .inr (ScalarKind.primitive.inj kind ▸ rfl)
    | _ => cases number
  refine ⟨fun target integral apart => ⟨?_, fun u made => ⟨?_, fun notBoolean => ?_⟩, fun e failed => ?_, ?_⟩,
    fun targets target integral integral' v chain => ?_, s.text, convert_text g zone s,
    convert_ofText_text kind number⟩
  · exact convert_whole_ok_iff kind number apart integral
  · obtain ⟨t, rfl, kind', number', -⟩ := (convert_whole_iff kind number apart integral).1 made
    exact ⟨t, rfl, kind', number'⟩
  · exact convert_back kind number apart (whole.resolve_left notBoolean) integral made
  · exact convert_whole_error kind number apart failed
  · exact convert_whole_total_iff whole apart integral
  · exact convert_of_convertThrough kind number integral integral' chain

/-- A character of more than sixteen bits becomes an integer and has no way back. -/
theorem convert_whole_wide :
    let s : Scalar := .char (Char.ofNat 0x1F600)
    (s.kind = .primitive .char ∧ s.whole? = some 0x1F600 ∧ s.IsWide) ∧
      ∃ u, empty.convert .utc (.scalar s) none (.scalar (.primitive (.integer .int))) = .ok u ∧
        ∃ e, empty.convert .utc u none (.scalar (.primitive .char)) = .error e ∧ e.fault.concern = .range := by
  intro s
  have wide : s.IsWide := by
    show 0xFFFF < (Char.ofNat 0x1F600).toNat
    decide
  have kind : s.kind = .primitive .char := rfl
  have number : s.whole? = some 0x1F600 := rfl
  obtain ⟨kinds, -⟩ := convert_whole empty .utc kind number
  obtain ⟨fits, back, -⟩ := kinds (.integer .int) rfl (by decide)
  obtain ⟨u, made⟩ := fits.2 ⟨by decide, by decide⟩
  exact ⟨⟨kind, number, wide⟩, u, made, ((back u made).2 (by decide)).2 wide⟩

end Graph

end FieldBinding
