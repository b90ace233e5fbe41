import FieldBinding.Path.Segment

/-!
# Paths

A `Path` is a non-empty list of segments, the first of which is the root.  `Path.text` writes a path and
`Path.parse` reads one: the segments are separated by slashes, a slash in front stands for the root, and
empty pieces are skipped.  Only the empty text is refused.

The root has brackets when the first piece of the text is brackets without a name.
-/

namespace FieldBinding

/-- A path: the root and the segments below it. -/
structure Path where
  head : Segment
  tail : List Segment
  deriving DecidableEq, Repr

/-- Why an operation on paths is refused. -/
inductive PathFault where
  /-- A path has at least one character. -/
  | emptyExpression
  /-- No segment has the expression or the name. -/
  | noSegmentMatches (segment : String)
  /-- The path is too short. -/
  | noSegmentAt (position : Nat)
  /-- The segment has no brackets. -/
  | notCollection (segment : String)
  /-- An index is not negative. -/
  | negativeIndex (index : Int)
  /-- The path is too short, or the segment does not select an entry. -/
  | noMapSegmentAt (position : Nat)
  /-- The path has no wildcard. -/
  | noVacantSegment
  deriving DecidableEq, Repr

/-- What is wrong, in words. -/
def PathFault.message : PathFault → String
  | emptyExpression => "empty path expression"
  | noSegmentMatches segment => "no segment matches '" ++ segment ++ "'"
  | noSegmentAt position => "no segment at position " ++ Numeral.text position
  | notCollection segment => "segment '" ++ segment ++ "' is not a collection segment"
  | negativeIndex index => "negative collection index " ++ Numeral.signedText index
  | noMapSegmentAt position => "no map segment at position " ++ Numeral.text position
  | noVacantSegment => "no vacant collection segment"

/-- A refused operation, with the text of the path that it was applied to. -/
structure PathError where
  path : String
  fault : PathFault
  deriving DecidableEq, Repr

namespace Path

/-- The root alone. -/
def root : Path :=
  ⟨.root, []⟩

/-- All segments, the root first. -/
def segments (p : Path) : List Segment :=
  p.head :: p.tail

/-- The number of segments. -/
def length (p : Path) : Nat :=
  p.segments.length

/-- The last segment; the root if there is no other. -/
def last (p : Path) : Segment :=
  p.tail.getLastD p.head

/-- Whether the path is its root alone. -/
def isRoot (p : Path) : Bool :=
  p.tail.isEmpty

/-- Whether any segment has brackets. -/
def hasCollection (p : Path) : Bool :=
  p.segments.any Segment.isCollection

/-- Whether any segment selects one place of a collection. -/
def isIndexed (p : Path) : Bool :=
  p.segments.any Segment.isIndexed

/-- Whether any segment selects every place of a collection. -/
def hasWildcard (p : Path) : Bool :=
  p.segments.any Segment.isWildcard

/-- The number of segments with brackets. -/
def collectionCount (p : Path) : Nat :=
  p.segments.countP Segment.isCollection

/-- The last segment with brackets. -/
def lastCollection? (p : Path) : Option Segment :=
  p.segments.findRev? Segment.isCollection

/-! ## Writing paths -/

/-- A text with an expression behind it, separated by exactly one slash where the text does not end in one
already. -/
def joined (text expression : List Char) : List Char :=
  (if text.getLast? = some '/' then text else text ++ ['/']) ++ expression

/-- The characters of a path. -/
def chars (p : Path) : List Char :=
  p.tail.foldl (fun text segment => joined text segment.expression.toList)
    ('/' :: p.head.expression.toList)

/-- The text of a path. -/
def text (p : Path) : String :=
  String.ofList p.chars

/-! ## Reading paths -/

/-- The text without one slash in front. -/
def body : List Char → List Char
  | '/' :: rest => rest
  | text => text

/-- The path written by the pieces between slashes. -/
def ofPieces (pieces : List (List Char)) : Path :=
  let below (pieces : List (List Char)) : List Segment :=
    (pieces.filter (!·.isEmpty)).map (Segment.ofPiece false)
  match pieces with
  | [] => root
  | first :: others =>
    let candidate := Segment.ofPiece true first
    if candidate.name = "" ∧ candidate.isCollection then ⟨candidate, below others⟩
    else ⟨.root, below (first :: others)⟩

/-- The path that a text writes. -/
def parse (text : String) : Except PathError Path :=
  if text.isEmpty then .error ⟨text, .emptyExpression⟩
  else .ok (ofPieces ((body text.toList).splitOn '/'))

end Path

end FieldBinding
