import FieldBinding.Path.Algebra

/-!
# Paths as records

A `SegmentRecord` keeps the parts of a segment side by side: the kind of its brackets, the index, the key, and the text
of all of it, written out once.  Nothing in its type keeps the parts in agreement with each other, nor a `PathRecord`,
which is a list of such segments, from being empty or from having its root in a wrong place.  It is the operations that
do: they build new segments through `SegmentRecord.collection` and `SegmentRecord.field`, and move roots and children to
where they belong.

A `PathCall` names an operation with its arguments.  `PathRecord.call` and `Path.call` are its results on both kinds of
paths, and `PathRecord.perform` puts the result in the place of the path.
-/

namespace FieldBinding

/-! ## Segments -/

/-- The parts of a segment, and its text. -/
structure SegmentRecord where
  name : String
  bracket? : Option Bracket
  index : Option Nat
  key : Option String
  expression : String
  isRoot : Bool
  deriving DecidableEq, Repr

namespace SegmentRecord

/-- The root without brackets. -/
def root : SegmentRecord :=
  ⟨"", none, none, none, "", true⟩

/-- A plain segment below the root. -/
def field (name : String) : SegmentRecord :=
  ⟨name, none, none, none, name, false⟩

/-- The text of the parts.  An index in brackets hides a key. -/
def rendered (s : SegmentRecord) : String :=
  match s.bracket? with
  | none => s.name
  | some b =>
    let inner := match s.index, s.key with
      | some n, _ => Numeral.text n
      | none, some key => key
      | none, none => ""
    s.name ++ b.opening.toString ++ inner ++ b.closing.toString

/-- A segment with brackets. -/
def collection (name : String) (b : Bracket) (index : Option Nat) (key : Option String) (isRoot : Bool) :
    SegmentRecord :=
  let s : SegmentRecord := ⟨name, some b, index, key, "", isRoot⟩
  { s with expression := s.rendered }

/-- Whether the segment has brackets. -/
def isCollection (s : SegmentRecord) : Bool :=
  s.bracket?.isSome

/-- Whether the brackets hold an index or a key. -/
def isIndexed (s : SegmentRecord) : Bool :=
  s.isCollection && (s.index.isSome || s.key.isSome)

/-- Whether the brackets hold nothing. -/
def isWildcard (s : SegmentRecord) : Bool :=
  s.isCollection && !s.isIndexed

/-- The segment with a key in its brackets; only the brackets of a map take one. -/
def withKey (s : SegmentRecord) (key : String) : SegmentRecord :=
  match s.bracket? with
  | some .entry => collection s.name .entry none (some key) s.isRoot
  | _ => s

/-- The segment with an index in its brackets.  In the brackets of a map the index is a key. -/
def withIndex (s : SegmentRecord) (n : Nat) : SegmentRecord :=
  match s.bracket? with
  | none => s
  | some .entry => s.withKey (Numeral.text n)
  | some (.element kind) => collection s.name (.element kind) (some n) none s.isRoot

/-- The segment without its brackets. -/
def withoutBrackets (s : SegmentRecord) : SegmentRecord :=
  { field s.name with isRoot := s.isRoot }

/-- The segment below a root. -/
def asChild (s : SegmentRecord) : SegmentRecord :=
  { s with isRoot := false }

/-- The segment written by a piece of text. -/
def ofPiece (isRoot : Bool) (piece : List Char) : SegmentRecord :=
  let verbatim : SegmentRecord := { field (String.ofList piece) with isRoot }
  match piece.getLast?.bind Bracket.ofClosing? with
  | none => verbatim
  | some b =>
    match Segment.cutAtLast b.opening piece.dropLast with
    | none => verbatim
    | some (name, inner) =>
      match b with
      | .entry =>
        let key := if inner.isEmpty then none else some (String.ofList inner)
        collection (String.ofList name) .entry none key isRoot
      | .element kind =>
        if inner.isEmpty then collection (String.ofList name) (.element kind) none none isRoot
        else
          match Numeral.canonical? inner with
          | some n => collection (String.ofList name) (.element kind) (some n) none isRoot
          | none => verbatim

end SegmentRecord

/-! ## Paths -/

/-- The segments of a path, the root first. -/
structure PathRecord where
  segments : List SegmentRecord
  deriving DecidableEq, Repr

namespace PathRecord

/-- The root alone. -/
def root : PathRecord :=
  ⟨[.root]⟩

/-- The characters of a path. -/
def chars (p : PathRecord) : List Char :=
  match p.segments with
  | [] => ['/']
  | head :: tail =>
    tail.foldl (fun text s => Path.joined text s.expression.toList) ('/' :: head.expression.toList)

/-- The text of a path. -/
def text (p : PathRecord) : String :=
  String.ofList p.chars

/-- The path written by the pieces between slashes. -/
def ofPieces (pieces : List (List Char)) : PathRecord :=
  let below (pieces : List (List Char)) : List SegmentRecord :=
    (pieces.filter (!·.isEmpty)).map (SegmentRecord.ofPiece false)
  match pieces with
  | [] => root
  | first :: others =>
    let candidate := SegmentRecord.ofPiece true first
    if candidate.name = "" ∧ candidate.isCollection then ⟨candidate :: below others⟩
    else ⟨.root :: below (first :: others)⟩

/-- The path that a text writes. -/
def parse (text : String) : Except PathError PathRecord :=
  if text.isEmpty then .error ⟨text, .emptyExpression⟩
  else .ok (ofPieces ((Path.body text.toList).splitOn '/'))

/-- The position of the segment that a text addresses. -/
def positionOf? (p : PathRecord) (text : String) : Option Nat :=
  (p.segments.findIdx? (·.expression == text)).or (p.segments.findIdx? (·.name == text))

/-- The refusal of an operation on this path. -/
def refuse (p : PathRecord) (fault : PathFault) : Except PathError PathRecord :=
  .error ⟨p.text, fault⟩

/-! ### Filling brackets -/

/-- The path with an index in the brackets of the segment at a position. -/
def withIndexAt (p : PathRecord) (position : Nat) (index : Int) : Except PathError PathRecord :=
  match p.segments[position]? with
  | none => p.refuse (.noSegmentAt position)
  | some s =>
    if !s.isCollection then p.refuse (.notCollection s.expression)
    else if index < 0 then p.refuse (.negativeIndex index)
    else .ok ⟨p.segments.set position (s.withIndex index.toNat)⟩

/-- The path with an index in the brackets of the addressed segment. -/
def withIndex (p : PathRecord) (segment : String) (index : Int) : Except PathError PathRecord :=
  match p.positionOf? segment with
  | none => p.refuse (.noSegmentMatches segment)
  | some position => p.withIndexAt position index

/-- The path with an index in the brackets of its first wildcard. -/
def withVacantIndex (p : PathRecord) (index : Int) : Except PathError PathRecord :=
  match p.segments.findIdx? SegmentRecord.isWildcard with
  | none => p.refuse .noVacantSegment
  | some position => p.withIndexAt position index

/-- The path with a key in the braces of the segment at a position. -/
def withKeyAt (p : PathRecord) (position : Nat) (key : String) : Except PathError PathRecord :=
  match p.segments[position]? with
  | none => p.refuse (.noMapSegmentAt position)
  | some s =>
    if s.bracket? = some .entry then .ok ⟨p.segments.set position (s.withKey key)⟩
    else p.refuse (.noMapSegmentAt position)

/-! ### Removing brackets -/

/-- The path without the brackets of the addressed segment. -/
def withoutBrackets (p : PathRecord) (segment : String) : Except PathError PathRecord :=
  match p.positionOf? segment with
  | none => p.refuse (.noSegmentMatches segment)
  | some position => .ok ⟨p.segments.modify position SegmentRecord.withoutBrackets⟩

/-- The path without any brackets below its root. -/
def withoutAllBrackets (p : PathRecord) : PathRecord :=
  ⟨p.segments.mapIdx fun i s => if i = 0 then s else s.withoutBrackets⟩

/-! ### Shortening and lengthening -/

/-- The path without its last segment; the root stays. -/
def parent (p : PathRecord) : PathRecord :=
  ⟨p.segments.take (max (p.segments.length - 1) 1)⟩

/-- The path without the first segment below its root. -/
def withoutFirst (p : PathRecord) : PathRecord :=
  if 1 < p.segments.length then ⟨p.segments.eraseIdx 1⟩ else p

/-- The segments behind a position, below a plain root.  Those in front are counted without a bound, as in
`upTo`. -/
def relativeTo (p : PathRecord) (position : Nat) : PathRecord :=
  ⟨.root :: (p.segments.drop (position + 1)).map SegmentRecord.asChild⟩

/-- The path with a plain segment behind it. -/
def child (p : PathRecord) (name : String) : PathRecord :=
  ⟨p.segments ++ [.field name]⟩

/-- The segments up to and including a position.  They are counted without a bound, where a word
would start over at zero behind the largest position. -/
def upTo (p : PathRecord) (position : Nat) : PathRecord :=
  ⟨p.segments.take (min (position + 1) p.segments.length)⟩

end PathRecord

/-! ## Calls -/

/-- An operation on a path with its arguments. -/
inductive PathCall where
  | withIndex (segment : String) (index : Int)
  | withIndexAt (position : Nat) (index : Int)
  | withKeyAt (position : Nat) (key : String)
  | withVacantIndex (index : Int)
  | withoutBrackets (segment : String)
  | withoutAllBrackets
  | parent
  | withoutFirst
  | relativeTo (position : Nat)
  | child (name : String)
  | upTo (position : Nat)
  deriving DecidableEq, Repr

namespace PathRecord

/-- The result of a call. -/
def call (p : PathRecord) : PathCall → Except PathError PathRecord
  | .withIndex segment index => p.withIndex segment index
  | .withIndexAt position index => p.withIndexAt position index
  | .withKeyAt position key => p.withKeyAt position key
  | .withVacantIndex index => p.withVacantIndex index
  | .withoutBrackets segment => p.withoutBrackets segment
  | .withoutAllBrackets => .ok p.withoutAllBrackets
  | .parent => .ok p.parent
  | .withoutFirst => .ok p.withoutFirst
  | .relativeTo position => .ok (p.relativeTo position)
  | .child name => .ok (p.child name)
  | .upTo position => .ok (p.upTo position)

/-- Performs a call in place: the result takes the place of the path if there is one. -/
def perform (c : PathCall) : EStateM PathError PathRecord Unit := do
  match (← get).call c with
  | .ok q => set q
  | .error e => throw e

end PathRecord

/-- The result of a call. -/
def Path.call (p : Path) : PathCall → Except PathError Path
  | .withIndex segment index => p.withIndex segment index
  | .withIndexAt position index => p.withIndexAt position index
  | .withKeyAt position key => p.withKeyAt position key
  | .withVacantIndex index => p.withVacantIndex index
  | .withoutBrackets segment => p.withoutBrackets segment
  | .withoutAllBrackets => .ok p.withoutAllBrackets
  | .parent => .ok p.parent
  | .withoutFirst => .ok p.withoutFirst
  | .relativeTo position => .ok (p.relativeTo position)
  | .child name => .ok (p.child name)
  | .upTo position => .ok (p.upTo position)

end FieldBinding
