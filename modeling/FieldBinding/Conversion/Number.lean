import FieldBinding.Conversion.Fault
import FieldBinding.Graph.Basic
import FieldBinding.Numeral.Literal

/-!
# Conversions to primitives

A truth value, a character or a number becomes a `Number` first, and so does the text of a number; from
there it goes to the primitive that is asked for.

The whole numbers of a kind form a `PrimitiveKind.domain?`.  A floating-point number loses the digits behind
its point before it is checked against the domain.  Characters are those with a code of sixteen bits.
-/

namespace FieldBinding

/-- The least and the greatest number of a kind of whole numbers. -/
def PrimitiveKind.domain? : PrimitiveKind → Option (Int × Int)
  | boolean => some (0, 1)
  | char => some (0, 0xFFFF)
  | integer kind => some (kind.least, kind.greatest)
  | float | double => none

namespace Conversion

/-- A conversion refuses a value of another kind than announced. -/
def unexpected {α : Type} (v : Value) : Except ConversionFault α :=
  .error (.unexpected v.kindName)

/-! ## Numbers -/

/-- The number that a value stands for. -/
def number (v : Value) : Except ConversionFault Number :=
  match v with
  | .scalar (.bool b) => .ok (.whole (if b then 1 else 0))
  | .scalar (.char c) => .ok (.whole c.toNat)
  | .scalar (.integer _ i) => .ok (.whole i.toInt)
  | .scalar (.float x) => .ok (.floating x.convert)
  | .scalar (.double x) => .ok (.floating x)
  | _ => unexpected v

/-- The whole number in a range; a floating-point number is cut off first. -/
def wholeIn (n : Number) (target : PrimitiveKind) (least greatest : Int) : Except ConversionFault Int :=
  let whole : Option Int := match n with
    | .whole i => some i
    | .floating x => x.truncate?
  match whole.filter fun i => least ≤ i ∧ i ≤ greatest with
  | some i => .ok i
  | none => .error (.outside n target least greatest)

/-- The character with a code of sixteen bits. -/
def charOf (code : Nat) : Except ConversionFault Scalar :=
  if 0xD800 ≤ code ∧ code ≤ 0xDFFF then .error (.surrogate code) else .ok (.char (Char.ofNat code))

/-- The greatest finite number of 32 bits, as one of 64 bits. -/
def greatestSingle : Numeral.Double :=
  (Numeral.Binary.ofMagnitude false (Numeral.single.infinity - 1) : Numeral.Single).convert

/-- The least positive number of 32 bits, as one of 64 bits. -/
def leastSingle : Numeral.Double :=
  (Numeral.Binary.ofMagnitude false 1 : Numeral.Single).convert

/-- The nearest number of 32 bits.  A finite number beyond the greatest is refused, and one that is nearer
to zero than the least becomes zero without a sign. -/
def narrowed (x : Numeral.Double) : Except ConversionFault Scalar :=
  if x.isFinite ∧ greatestSingle.magnitude < x.magnitude then .error (.beyondFloat x)
  else if !x.isZero ∧ x.magnitude < leastSingle.magnitude then .ok (.float (.ofMagnitude false 0))
  else .ok (.float x.convert)

/-- The primitive of a kind with the value of a number. -/
def ofNumber (target : PrimitiveKind) (n : Number) : Except ConversionFault Scalar :=
  match target with
  | .boolean =>
    match n with
    | .whole i => .ok (.bool (i ≠ 0))
    | .floating x => .ok (.bool !x.isZero)
  | .char => do charOf (← wholeIn n .char 0 0xFFFF).toNat
  | .integer kind =>
    match wholeIn n (.integer kind) kind.least kind.greatest with
    | .error fault => .error fault
    | .ok i =>
      match Bounded.of? kind i with
      | some b => .ok (.integer kind b)
      | none => .error (.outside n (.integer kind) kind.least kind.greatest)
  | .float =>
    match n with
    | .whole i => .ok (.float (.ofInt i))
    | .floating x => narrowed x
  | .double =>
    match n with
    | .whole i => .ok (.double (.ofInt i))
    | .floating x => .ok (.double x)

/-- Converts a truth value, a character or a number to a primitive. -/
def toPrimitive (target : PrimitiveKind) (v : Value) : Except ConversionFault Scalar := do
  ofNumber target (← number v)

/-! ## Texts -/

/-- The text that a value is, without white space at its ends. -/
def trimmedText (v : Value) : Except ConversionFault String :=
  match v with
  | .scalar (.string s) => .ok (Text.trimmed s)
  | _ => unexpected v

/-- The truth value that a text writes. -/
def readBoolean (text : String) : Except ConversionFault Scalar :=
  let lower := String.ofList (text.toList.map Char.toLower)
  if lower ∈ ["1", "t", "true"] then .ok (.bool true)
  else if lower ∈ ["0", "f", "false"] then .ok (.bool false)
  else .error (.notBoolean lower)

/-- The floating-point number that a text writes. -/
def readDouble (target : PrimitiveKind) (text : String) : Except ConversionFault Numeral.Double :=
  match Numeral.Literal.read? text.toList with
  | some literal => .ok literal.toBinary
  | none => .error (.notNumber text target)

/-- The number that a text writes: an integer, or a finite number with digits behind a point. -/
def readNumber (target : PrimitiveKind) (text : String) : Except ConversionFault Number :=
  match Numeral.long? text.toList with
  | some i => .ok (.whole i)
  | none => do
    let x ← readDouble target text
    if x.isFinite then .ok (.floating x) else .error (.notNumber text target)

/-- The character that a text consists of. -/
def readChar (text : String) : Except ConversionFault Scalar :=
  match text.toList with
  | [c] => if c.toNat ≤ 0xFFFF then charOf c.toNat else .error (.beyondChar c)
  | _ => .error (.notOneCharacter text)

/-- Converts a text to a primitive.  White space at the ends does not count, except to a character. -/
def textToPrimitive (target : PrimitiveKind) (v : Value) : Except ConversionFault Scalar :=
  match target with
  | .boolean => do readBoolean (← trimmedText v)
  | .char =>
    match v with
    | .scalar (.string s) => readChar s
    | _ => unexpected v
  | .integer kind => do ofNumber (.integer kind) (← readNumber (.integer kind) (← trimmedText v))
  | .float => do narrowed (← readDouble .float (← trimmedText v))
  | .double => do return .double (← readDouble .double (← trimmedText v))

end Conversion

end FieldBinding
