import FieldBinding.Numeral.Digits

/-!
# Tokens of a JSON text

A JSON text is cut into punctuation, words, numbers and texts.  A number keeps its spelling, because a count
has to be written without a sign, a point or an exponent.  A text with an escape for half of a surrogate
pair is still a token, but it has no content.
-/

namespace FieldBinding

/-- The content of a written text; none if it holds half of a surrogate pair. -/
abbrev JsonText := Option String

/-- A token of a JSON text. -/
inductive JsonToken where
  | openArray
  | closeArray
  | openObject
  | closeObject
  | comma
  | colon
  | null
  | bool (b : Bool)
  | number (spelling : List Char)
  | text (content : JsonText)
  deriving DecidableEq, Repr

namespace JsonToken

/-! ## Texts -/

/-- A character of a written text, or an escaped code unit of sixteen bits. -/
inductive Piece where
  | char (c : Char)
  | unit (n : Nat)

/-- The content of a written text: the two halves of a surrogate pair are one character. -/
def contentOf : List Piece → Option (List Char)
  | [] => some []
  | .char c :: rest => (contentOf rest).map (c :: ·)
  | [.unit n] => if 0xD800 ≤ n ∧ n ≤ 0xDFFF then none else some [Char.ofNat n]
  | .unit n :: next :: rest =>
    if 0xD800 ≤ n ∧ n ≤ 0xDBFF then
      match next with
      | .unit m =>
        if 0xDC00 ≤ m ∧ m ≤ 0xDFFF then
          (contentOf rest).map (Char.ofNat (0x10000 + (n - 0xD800) * 0x400 + (m - 0xDC00)) :: ·)
        else none
      | .char _ => none
    else if 0xDC00 ≤ n ∧ n ≤ 0xDFFF then none
    else (contentOf (next :: rest)).map (Char.ofNat n :: ·)

/-- The value of a hexadecimal digit. -/
def hexDigit? (c : Char) : Option Nat :=
  if c.isDigit then some (c.toNat - '0'.toNat)
  else if 'a' ≤ c ∧ c ≤ 'f' then some (c.toNat - 'a'.toNat + 10)
  else if 'A' ≤ c ∧ c ≤ 'F' then some (c.toNat - 'A'.toNat + 10)
  else none

/-- The character that a backslash and a letter stand for. -/
def escaped? : Char → Option Char
  | '"' => some '"'
  | '\\' => some '\\'
  | '/' => some '/'
  | 'b' => some '\x08'
  | 'f' => some '\x0c'
  | 'n' => some '\n'
  | 'r' => some '\x0d'
  | 't' => some '\t'
  | _ => none

/-- The pieces of a text behind its opening quote, and what stands behind the closing one. -/
def quoted? : List Char → Option (List Piece × List Char)
  | [] => none
  | '"' :: rest => some ([], rest)
  | '\\' :: 'u' :: a :: b :: c :: d :: rest => do
    let n := 0x1000 * (← hexDigit? a) + 0x100 * (← hexDigit? b) + 0x10 * (← hexDigit? c) + (← hexDigit? d)
    let (pieces, rest) ← quoted? rest
    return (.unit n :: pieces, rest)
  | '\\' :: c :: rest => do
    let e ← escaped? c
    let (pieces, rest) ← quoted? rest
    return (.char e :: pieces, rest)
  | c :: rest =>
    if c.toNat < 0x20 ∨ c = '\\' then none
    else (quoted? rest).map fun q => (.char c :: q.1, q.2)

theorem length_quoted? {text rest : List Char} {pieces : List Piece}
    (h : quoted? text = some (pieces, rest)) : rest.length ≤ text.length := by
  fun_induction quoted? text generalizing pieces rest with
  | case1 => simp at h
  | case2 tail => simp at h; simp [h]
  | case3 a b c d tail ih =>
    simp only [bind, Option.bind_eq_some_iff, pure, Option.some.injEq, Prod.mk.injEq] at h
    obtain ⟨_, _, _, _, _, _, _, _, ⟨p, r⟩, hq, _, rfl⟩ := h
    have := ih hq
    simp only [List.length_cons]
    omega
  | case4 c tail _ ih =>
    simp only [bind, Option.bind_eq_some_iff, pure, Option.some.injEq, Prod.mk.injEq] at h
    obtain ⟨_, _, ⟨p, r⟩, hq, _, rfl⟩ := h
    have := ih hq
    simp only [List.length_cons]
    omega
  | case5 => simp at h
  | case6 c tail _ _ _ _ ih =>
    obtain ⟨⟨p, r⟩, hq, heq⟩ := Option.map_eq_some_iff.1 h
    have := ih hq
    simp only [Prod.mk.injEq] at heq
    simp only [List.length_cons, ← heq.2]
    omega

/-! ## Numbers -/

/-- Whether a character can stand in a number. -/
def isNumeric (c : Char) : Bool :=
  c.isDigit || c ∈ ['+', '-', '.', 'e', 'E']

/-- Whether the characters are digits, at least one of them. -/
def areDigits (cs : List Char) : Bool :=
  !cs.isEmpty && cs.all Char.isDigit

/-- Whether the characters are an exponent, or nothing. -/
def isExponent : List Char → Bool
  | [] => true
  | c :: rest =>
    (c = 'e' || c = 'E') &&
      match rest with
      | '+' :: ds | '-' :: ds => areDigits ds
      | ds => areDigits ds

/-- Whether the characters are a point with digits behind it, and an exponent, each of them optional. -/
def isFraction : List Char → Bool
  | '.' :: rest =>
    areDigits (rest.takeWhile Char.isDigit) && isExponent (rest.dropWhile Char.isDigit)
  | rest => isExponent rest

/-- Whether the characters are a number without a sign: zero or digits that do not begin with it, and a
fraction. -/
def isMagnitude : List Char → Bool
  | '0' :: rest => isFraction rest
  | cs => areDigits (cs.takeWhile Char.isDigit) && isFraction (cs.dropWhile Char.isDigit)

/-- Whether the characters are a number. -/
def isNumber : List Char → Bool
  | '-' :: cs => isMagnitude cs
  | cs => isMagnitude cs

/-! ## Tokens -/

/-- Whether a character is white space between tokens. -/
def isSpace (c : Char) : Bool :=
  c ∈ [' ', '\t', '\n', '\x0d']

/-- The token of one character. -/
def punctuation? : Char → Option JsonToken
  | '[' => some openArray
  | ']' => some closeArray
  | '{' => some openObject
  | '}' => some closeObject
  | ',' => some comma
  | ':' => some colon
  | _ => none

/-- The token at the front of a text, and what stands behind it. -/
def next? (text : List Char) : Option (JsonToken × List Char) :=
  match text with
  | [] => none
  | '"' :: rest => (quoted? rest).map fun q => (.text ((contentOf q.1).map String.ofList), q.2)
  | 'n' :: 'u' :: 'l' :: 'l' :: rest => some (.null, rest)
  | 't' :: 'r' :: 'u' :: 'e' :: rest => some (.bool true, rest)
  | 'f' :: 'a' :: 'l' :: 's' :: 'e' :: rest => some (.bool false, rest)
  | c :: rest =>
    match punctuation? c with
    | some token => some (token, rest)
    | none =>
      if isNumeric c && isNumber (c :: rest.takeWhile isNumeric) then
        some (.number (c :: rest.takeWhile isNumeric), rest.dropWhile isNumeric)
      else none

theorem length_dropWhile_le {α : Type} (p : α → Bool) (l : List α) :
    (l.dropWhile p).length ≤ l.length := by
  induction l with
  | nil => simp
  | cons a l ih =>
    rw [List.dropWhile_cons]
    split
    · simp only [List.length_cons]; omega
    · simp

theorem length_next? {text rest : List Char} {token : JsonToken}
    (h : next? text = some (token, rest)) : rest.length < text.length := by
  unfold next? at h
  split at h
  · simp at h
  · obtain ⟨⟨p, r⟩, hq, heq⟩ := Option.map_eq_some_iff.1 h
    have := length_quoted? hq
    simp only [Prod.mk.injEq] at heq
    simp only [List.length_cons, ← heq.2]
    omega
  · simp at h; simp only [List.length_cons, ← h.2]; omega
  · simp at h; simp only [List.length_cons, ← h.2]; omega
  · simp at h; simp only [List.length_cons, ← h.2]; omega
  · next c tail _ _ _ _ =>
    split at h
    · simp at h; simp only [List.length_cons, ← h.2]; omega
    · split at h
      · simp at h
        have := length_dropWhile_le isNumeric tail
        simp only [List.length_cons, ← h.2]
        omega
      · simp at h

/-- The tokens of a text. -/
def ofChars? (text : List Char) : Option (List JsonToken) :=
  if (text.dropWhile isSpace).isEmpty then some []
  else
    match hnext : next? (text.dropWhile isSpace) with
    | none => none
    | some (token, rest) =>
      have : rest.length < text.length :=
        Nat.lt_of_lt_of_le (length_next? hnext) (length_dropWhile_le isSpace text)
      (ofChars? rest).map (token :: ·)
termination_by text.length

end JsonToken

end FieldBinding
