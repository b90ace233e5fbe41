import FieldBinding.Path.Basic

/-!
# The algebra of paths

Operations that make one path from another: filling in the brackets of a segment, removing brackets, and
cutting a path or lengthening it.  A segment is addressed by its position or by its text; a text addresses
the first segment that has it for its expression and, if there is none, the first that has it for its
name.
-/

namespace FieldBinding.Path

/-- Replaces the segment at a position. -/
def modifyAt (p : Path) (f : Segment → Segment) : Nat → Path
  | 0 => { p with head := f p.head }
  | n + 1 => { p with tail := p.tail.modify n f }

theorem segments_modifyAt (p : Path) (f : Segment → Segment) (n : Nat) :
    (p.modifyAt f n).segments = p.segments.modify n f := by
  cases n <;> simp [modifyAt, segments, List.modify]

/-- The position of the segment that a text addresses. -/
def positionOf? (p : Path) (text : String) : Option Nat :=
  (p.segments.findIdx? (·.expression == text)).or (p.segments.findIdx? (·.name == text))

/-- The refusal of an operation on this path. -/
def refuse (p : Path) (fault : PathFault) : Except PathError Path :=
  .error ⟨p.text, fault⟩

/-! ## Filling brackets -/

/-- The path with an index in the brackets of the segment at a position. -/
def withIndexAt (p : Path) (position : Nat) (index : Int) : Except PathError Path :=
  match p.segments[position]? with
  | none => p.refuse (.noSegmentAt position)
  | some segment =>
    if !segment.isCollection then p.refuse (.notCollection segment.expression)
    else if index < 0 then p.refuse (.negativeIndex index)
    else .ok (p.modifyAt (·.withIndex index.toNat) position)

/-- The path with an index in the brackets of the addressed segment. -/
def withIndex (p : Path) (segment : String) (index : Int) : Except PathError Path :=
  match p.positionOf? segment with
  | none => p.refuse (.noSegmentMatches segment)
  | some position => p.withIndexAt position index

/-- The path with an index in the brackets of its first wildcard. -/
def withVacantIndex (p : Path) (index : Int) : Except PathError Path :=
  match p.segments.findIdx? Segment.isWildcard with
  | none => p.refuse .noVacantSegment
  | some position => p.withIndexAt position index

/-- The path with a key in the braces of the segment at a position. -/
def withKeyAt (p : Path) (position : Nat) (key : String) : Except PathError Path :=
  match p.segments[position]? with
  | some ⟨_, .entry _, _⟩ => .ok (p.modifyAt (·.withKey key) position)
  | _ => p.refuse (.noMapSegmentAt position)

/-! ## Removing brackets -/

/-- The path without the brackets of the addressed segment. -/
def withoutBrackets (p : Path) (segment : String) : Except PathError Path :=
  match p.positionOf? segment with
  | none => p.refuse (.noSegmentMatches segment)
  | some position => .ok (p.modifyAt Segment.withoutBrackets position)

/-- The path without any brackets below its root. -/
def withoutAllBrackets (p : Path) : Path :=
  { p with tail := p.tail.map Segment.withoutBrackets }

/-! ## Shortening and lengthening -/

/-- The path without its last segment; the root stays. -/
def parent (p : Path) : Path :=
  { p with tail := p.tail.dropLast }

/-- The path without the first segment below its root. -/
def withoutFirst (p : Path) : Path :=
  { p with tail := p.tail.tail }

/-- The segments up to and including a position.  They are counted without a bound, where a word
would start over at zero behind the largest position. -/
def upTo (p : Path) (position : Nat) : Path :=
  { p with tail := p.tail.take position }

/-- The segments behind a position, below a plain root.  Those in front are counted without a bound, as in
`upTo`. -/
def relativeTo (p : Path) (position : Nat) : Path :=
  ⟨.root, p.tail.drop position⟩

/-- The path with a plain segment behind it. -/
def child (p : Path) (name : String) : Path :=
  { p with tail := p.tail ++ [.field name] }

theorem segments_upTo (p : Path) (position : Nat) :
    (p.upTo position).segments = p.segments.take (position + 1) := by
  simp [upTo, segments]

end FieldBinding.Path
