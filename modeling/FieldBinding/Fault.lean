import FieldBinding.Conversion.Fault
import FieldBinding.Path.Basic

/-!
# Failures

A `BindError` says why a document cannot be read or written at a path.  Failures that are tied to a path, be
it that the path itself is wrong or that the document has another shape, carry the text of the path.
`BindError.message` is the failure in words.
-/

namespace FieldBinding

/-- What stands in the way of a path in a document. -/
inductive ShapeFault where
  /-- A wildcard addresses many places, and a write needs one. -/
  | wildcardWrite
  /-- An array that is an element of another collection cannot be replaced by a longer one. -/
  | nestedArrayGrowth
  /-- A place of a scalar type has nothing below it. -/
  | notNavigable (tag : TypeTag)
  /-- Brackets without an index address no place for a value. -/
  | terminalWithoutSlot
  | pastEnd (index size : Nat)
  | cannotHold (tag : TypeTag) (slot : Slot)
  deriving DecidableEq, Repr

/-- The text of a place in a collection, inside a sentence. -/
def Slot.prose : Slot → String
  | index n => "index " ++ Numeral.text n
  | key text => "key '" ++ text ++ "'"

/-- What is wrong, in words. -/
def ShapeFault.message : ShapeFault → String
  | wildcardWrite => "cannot write through a wildcard segment"
  | nestedArrayGrowth => "a nested anonymous array cannot be resized"
  | notNavigable tag => "cannot navigate into a " ++ tag.text ++ " value"
  | terminalWithoutSlot => "terminal collection segment has no index"
  | pastEnd index size =>
    "index " ++ Numeral.text index ++ " is past the end of a collection of " ++ Numeral.text size
  | cannotHold tag slot => "a " ++ tag.text ++ " value cannot hold " ++ slot.prose

/-- Why a document cannot be read or written. -/
inductive BindError where
  | path (e : PathError)
  | shape (path : String) (fault : ShapeFault)
  | noAccessor (typeName field : String)
  /-- Several setters take the value, and nothing says which one is meant. -/
  | ambiguousSetter (typeName field : String) (signatures : List String)
  | unknownType (name : String)
  | abstractType (name : String)
  | conversion (e : ConversionError)
  /-- There is no document to read a path from. -/
  | noDocument (path : String)
  /-- The collection that a queued value belongs to is no longer there. -/
  | vanished (name : String)
  /-- A setter refused a value, for a reason of its own. -/
  | refused (reason : String)
  deriving DecidableEq, Repr

/-- What happened, in words. -/
def BindError.message : BindError → String
  | .path e => "Structural error at " ++ e.path ++ ": " ++ e.fault.message
  | shape place fault => "Structural error at " ++ place ++ ": " ++ fault.message
  | noAccessor typeName field => "No accessor for '" ++ field ++ "' on " ++ typeName
  | ambiguousSetter typeName field signatures =>
    "Ambiguous setter for '" ++ field ++ "' on " ++ typeName ++ ": " ++ ", ".intercalate signatures
  | unknownType name => "Unknown type: " ++ name
  | abstractType name => "Cannot instantiate " ++ name ++ ": type is abstract"
  | conversion e => e.message
  | noDocument place => "Document error: no source document to read " ++ place
  | vanished name => "Document error: collection '" ++ name ++ "' vanished before commit"
  | refused reason => "Document error: " ++ reason

end FieldBinding
