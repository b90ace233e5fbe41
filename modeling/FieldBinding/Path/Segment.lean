import FieldBinding.Numeral.Digits
import FieldBinding.Slot

/-!
# Segments of a path

A `Segment` is a name with a `Selector`.  The selector is what stands in brackets behind the name: nothing,
the index of an element in square or angle brackets, or the key of an entry in braces.  Brackets that hold
nothing select every element or entry; such a segment is a *wildcard*.

`Segment.expression` writes a segment, `Segment.ofPiece` reads one.  A piece of text that does not have the
form of a bracketed segment is a plain name, whatever characters it holds, so reading never fails and
never loses a character (`expression_ofPiece`).
-/

namespace FieldBinding

/-- What the brackets of a segment select. -/
inductive Selector where
  /-- No brackets. -/
  | plain
  /-- An element of a sequence, or every element. -/
  | element (kind : SequenceKind) (index : Option Nat)
  /-- An entry of a map, or every entry. -/
  | entry (key : Option String)
  deriving DecidableEq, Repr

/-- One step of a path.  Exactly the first segment of a path is its root. -/
structure Segment where
  name : String
  selector : Selector
  isRoot : Bool
  deriving DecidableEq, Repr

/-! ## Brackets -/

/-- The three pairs of brackets. -/
inductive Bracket where
  | element (kind : SequenceKind)
  | entry
  deriving DecidableEq, Repr

namespace Bracket

/-- The character that opens the brackets. -/
def opening : Bracket → Char
  | element .array => '['
  | element .list => '<'
  | entry => '{'

/-- The character that closes the brackets. -/
def closing : Bracket → Char
  | element .array => ']'
  | element .list => '>'
  | entry => '}'

/-- The brackets that a character closes. -/
def ofClosing? : Char → Option Bracket
  | ']' => some (element .array)
  | '>' => some (element .list)
  | '}' => some entry
  | _ => none

/-- The selector written by the text between the brackets.  Any text is a key; an index has no superfluous
zero in front. -/
def selector? : Bracket → List Char → Option Selector
  | element kind, [] => some (.element kind none)
  | element kind, inner => (Numeral.canonical? inner).map fun n => .element kind (some n)
  | entry, [] => some (.entry none)
  | entry, inner => some (.entry (some (String.ofList inner)))

theorem closing_of_ofClosing? {c : Char} {b : Bracket} (h : ofClosing? c = some b) :
    b.closing = c := by
  unfold ofClosing? at h
  split at h <;> first | (injection h with h; subst h; rfl) | contradiction

end Bracket

namespace Selector

/-- The brackets of a selector. -/
def bracket? : Selector → Option Bracket
  | plain => none
  | element kind _ => some (.element kind)
  | entry _ => some .entry

/-- What is written between the brackets. -/
def inner : Selector → String
  | plain | element _ none | entry none => ""
  | element _ (some n) => Numeral.text n
  | entry (some key) => key

/-- The brackets with their content. -/
def text (s : Selector) : String :=
  match s.bracket? with
  | none => ""
  | some b => b.opening.toString ++ s.inner ++ b.closing.toString

/-- The index in the brackets of an element. -/
def index? : Selector → Option Nat
  | element _ index => index
  | _ => none

/-- The key in the brackets of an entry. -/
def key? : Selector → Option String
  | entry key => key
  | _ => none

/-- The single place that is selected. -/
def slot? : Selector → Option Slot
  | plain => none
  | element _ index => index.map .index
  | entry key => key.map .key

end Selector

namespace Segment

/-! ## Building segments -/

/-- The root without brackets. -/
def root : Segment :=
  ⟨"", .plain, true⟩

/-- A plain segment below the root. -/
def field (name : String) : Segment :=
  ⟨name, .plain, false⟩

/-- The text of a segment: its name and its brackets. -/
def expression (s : Segment) : String :=
  s.name ++ s.selector.text

/-- Whether the segment has brackets. -/
def isCollection (s : Segment) : Bool :=
  s.selector.bracket?.isSome

/-- Whether the brackets select one place. -/
def isIndexed (s : Segment) : Bool :=
  s.selector.slot?.isSome

/-- Whether the brackets select every place. -/
def isWildcard (s : Segment) : Bool :=
  s.isCollection && !s.isIndexed

/-- The segment with an index in its brackets.  In the brackets of a map the index is a key. -/
def withIndex (s : Segment) (n : Nat) : Segment :=
  match s.selector with
  | .plain => s
  | .element kind _ => { s with selector := .element kind (some n) }
  | .entry _ => { s with selector := .entry (some (Numeral.text n)) }

/-- The segment with a key in its brackets; only the brackets of a map take one. -/
def withKey (s : Segment) (key : String) : Segment :=
  match s.selector with
  | .entry _ => { s with selector := .entry (some key) }
  | _ => s

/-- The segment with the given place in its brackets; the brackets of a sequence take no key. -/
def withSlot? (s : Segment) : Slot → Option Segment
  | .index n => some (s.withIndex n)
  | .key key => if s.selector.bracket? = some .entry then some (s.withKey key) else none

/-- The segment without its brackets. -/
def withoutBrackets (s : Segment) : Segment :=
  { s with selector := .plain }

/-! ## Reading segments -/

/-- The text before and after the last occurrence of a character. -/
def cutAtLast (c : Char) : List Char → Option (List Char × List Char)
  | [] => none
  | d :: rest =>
    match cutAtLast c rest with
    | some (before, after) => some (d :: before, after)
    | none => if d = c then some ([], rest) else none

/-- The name and the selector of a text that ends in a closing bracket. -/
def bracketed? (piece : List Char) : Option (List Char × Selector) := do
  let bracket ← piece.getLast?.bind Bracket.ofClosing?
  let (name, inner) ← cutAtLast bracket.opening piece.dropLast
  let selector ← bracket.selector? inner
  return (name, selector)

/-- The segment written by a piece of text.  The piece is a plain name unless its last character closes
brackets, the brackets are opened, and they hold a selector. -/
def ofPiece (isRoot : Bool) (piece : List Char) : Segment :=
  match bracketed? piece with
  | some (name, selector) => ⟨String.ofList name, selector, isRoot⟩
  | none => ⟨String.ofList piece, .plain, isRoot⟩

theorem append_of_cutAtLast {c : Char} {text before after : List Char}
    (h : cutAtLast c text = some (before, after)) : before ++ c :: after = text := by
  induction text generalizing before with
  | nil => simp [cutAtLast] at h
  | cons d rest ih =>
    rw [cutAtLast] at h
    split at h
    · next b a hrest =>
      simp only [Option.some.injEq, Prod.mk.injEq] at h
      obtain ⟨rfl, rfl⟩ := h
      simpa using ih hrest
    · split at h
      · next hd =>
        simp only [Option.some.injEq, Prod.mk.injEq] at h
        obtain ⟨rfl, rfl⟩ := h
        simp [hd]
      · contradiction

end Segment

end FieldBinding
