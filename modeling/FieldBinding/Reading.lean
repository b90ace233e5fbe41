import FieldBinding.Audit
import FieldBinding.Field
import FieldBinding.Navigation

/-!
# Reading fields

`Registry.walk` follows the segments of a path from a value and returns a `Finding` for every place that the
path meets: one, or one for each element under every wildcard.  A place that cannot be reached still has its
finding, with null for a value, and a warning says what stood in the way.  What is missing at the last
segment is null without a warning.

The path of a finding has the index or the key of each element that the walk went through in place of the
wildcards.
-/

namespace FieldBinding

/-- Why a place cannot be reached. -/
inductive ReadFault where
  /-- The value in front of a segment is null. -/
  | nothingBefore (segment : String)
  | step (e : BindError)
  | absentCollection (name : String)
  | notCollection (segment : String)
  deriving DecidableEq, Repr

/-- What is wrong, in words. -/
def ReadFault.message : ReadFault → String
  | nothingBefore segment => "no value to navigate into at '" ++ segment ++ "'"
  | step e => e.message
  | absentCollection name => "collection '" ++ name ++ "' is absent"
  | notCollection segment => "'" ++ segment ++ "' is not a collection"

/-- What was found at one place of a path. -/
structure Finding where
  field : Field
  warning : Option ReadFault := none

/-- The remark that belongs to a finding. -/
def Finding.audit? (f : Finding) : Option Audit :=
  f.warning.map fun fault => { status := .warn, path := f.field.path.text, message := fault.message }

namespace Path

/-- The path with a place in the brackets of the segment at a position. -/
def withSlotAt (p : Path) (position : Nat) : Slot → Except PathError Path
  | .index n => p.withIndexAt position n
  | .key key => p.withKeyAt position key

end Path

namespace Registry

/-- The finding of a value at a path.  Without a declared type the field has the type of the value. -/
def found (template : Field) (path : Path) (v : Value) (index : Option Nat) (g : Graph) : Finding :=
  let inferred := if v.isNull then none else some (g.tagOf v)
  { field := { template.template path with type := template.type.or inferred, value := v, index } }

/-- The finding of a place that cannot be reached. -/
def unreached (template : Field) (path : Path) (index : Option Nat) (fault : ReadFault) : Finding :=
  { field := { template.template path with index }, warning := some fault }

/-- Follows segments from a value. The first of them is at the given position of the path, and the index is
that of the innermost wildcard that was passed. -/
def follow (r : Registry) (template : Field) (path : Path) (current : Value) (position : Nat)
    (index : Option Nat) : List Segment → StateM Graph (List Finding)
  | [] => return [found template path current index (← get)]
  | segment :: rest => do
    if current.isNull then
      return [unreached template path index (.nothingBefore segment.expression)]
    match ← (r.child current segment.name).run with
    | .error e =>
      if rest.isEmpty then return [found template path .null index (← get)]
      else return [unreached template path index (.step e)]
    | .ok child =>
      if !segment.isCollection then r.follow template path child (position + 1) index rest
      else if child.isNull then
        if rest.isEmpty then return [found template path .null index (← get)]
        else return [unreached template path index (.absentCollection segment.name)]
      else if !child.isCollection then
        return [unreached template path index (.notCollection segment.expression)]
      else
        let g ← get
        match segment.selector.slot? with
        | some slot => r.follow template path (g.elementAt child slot) (position + 1) index rest
        | none =>
          let findings ← (g.elements child).zipIdx.mapM fun ((slot, element), i) => do
            match path.withSlotAt position slot with
            | .ok concrete => r.follow template concrete element (position + 1) (some i) rest
            | .error _ => return []
          return findings.flatten

/-- Everything that the path of a field meets, from a value. -/
def findings (r : Registry) (template : Field) (source : Value) : StateM Graph (List Finding) :=
  let path := template.path
  if path.head.isCollection then r.follow template path source 0 none path.segments
  else r.follow template path source 1 none path.tail

/-- What a field reads from its findings: a group if its path has a wildcard, and a field otherwise. -/
def extracted (template : Field) (findings : List Finding) : Extracted :=
  let fields := findings.map (·.field)
  if template.path.hasWildcard then .group ⟨template.path, template.type, fields⟩
  else .field (fields.getLastD (template.template template.path))

/-- Reads the value or the values at the path of a field, with the remarks on places that cannot be
reached. -/
def read (r : Registry) (template : Field) (source : Value) : Step (Extracted × List Audit) := do
  if source.isNull then throw (.noDocument template.path.text)
  let findings ← r.findings template source
  return (extracted template findings, findings.filterMap (·.audit?))

end Registry

end FieldBinding
