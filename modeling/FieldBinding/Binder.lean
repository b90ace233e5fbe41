import FieldBinding.Config
import FieldBinding.Reading
import FieldBinding.Writing

/-!
# Binders

A `Binder` joins the types of a document with the settings, and reads and writes documents with both.  Where no zone
is set, conversions take that of the host.
-/

namespace FieldBinding

/-- The types of documents, the settings, and the clocks of the host. -/
structure Binder where
  registry : Registry
  config : Config := {}
  clock : HostClock := .utc

namespace Binder

/-- A collection of remarks about the configured document. -/
def audits (b : Binder) : Audits :=
  { docId := b.config.docId }

/-- Reads what a path meets. -/
def readPath (b : Binder) (expression : String) (source : Value) : Step (Extracted × List Audit) := do
  match Path.parse expression with
  | .ok path => b.registry.read { path } source
  | .error e => throw (.path e)

/-- Reads what the path of a field meets, for fields of its type. -/
def readField (b : Binder) (template : Field) (source : Value) : Step (Extracted × List Audit) :=
  b.registry.read template source

/-- Starts to write a new object of a registered type. -/
def writerFor (b : Binder) (g : Graph) (typeName : String) : Except BindError Writer := do
  let (root, graph) ← b.registry.instantiate g (.complex typeName)
  return { graph, root }

/-- The zone of conversions. -/
def zone (b : Binder) : Zone :=
  .ofName b.clock b.config.timezone

/-- Prepares the path of a field and queues its value. -/
def write (b : Binder) (field : Field) : Writing Unit :=
  Writer.write b.registry b.zone field

/-- Writes the fields of a group and returns how many of them are queued. -/
def writeGroup (b : Binder) (group : FieldGroup) : StateM Writer Nat :=
  Writer.writeGroup b.registry b.zone group

/-- Queues a value for an owner that has been prepared. -/
def populate (b : Binder) (field : Field) (owner : Option Value) : Writing Unit :=
  Writer.populate b.registry b.zone field owner

/-- Stores the queued values and returns how many of them are stored. -/
def commit (b : Binder) : StateM Writer Nat :=
  Writer.commit b.registry b.zone

/-- A resolver of properties in the configured order, without sources. -/
def propertyResolver (b : Binder) : PropertyResolver :=
  { order := b.config.propertyOrder, clock := b.clock }

/-- The text of the values of a group. -/
def combine (b : Binder) (g : Graph) (group : FieldGroup) : Option String :=
  g.combineFields b.config.combine group

/-- The fields of the items of a value. -/
def separate (b : Binder) (g : Graph) (field : Field) : FieldGroup :=
  g.separateField b.config.separate field

end Binder

end FieldBinding
