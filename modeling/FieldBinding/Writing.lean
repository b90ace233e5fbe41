import FieldBinding.Audit
import FieldBinding.Conversion.Rule
import FieldBinding.Field
import FieldBinding.Navigation

/-!
# Writing fields

A write goes through three stages.

* `Writer.prepare` follows the path of a field, makes what is missing on the way, and returns the owner of
  the place that the last segment stands for.
* `Writer.populate` converts the value to the type of the place and puts it into a queue.
* `Writer.commit` stores the queued values, in order.  A collection is looked up again from its owner, since
  an array may have been replaced in the meantime.

A value that cannot be converted becomes null, and a value that cannot be stored is left out; both leave a
remark and do not stop the others.
-/

namespace FieldBinding

/-- A value that waits to be stored. -/
structure PendingWrite where
  field : Field
  /-- The node that the last segment starts from; none if the field is the root. -/
  owner : Option Value
  /-- The type of the place, if it is known. -/
  target : Option TypeTag

/-- A document that is being written. -/
structure Writer where
  graph : Graph
  root : Value
  pending : List PendingWrite := []
  audits : List Audit := []

/-- A computation on a document that is being written. -/
abbrev Writing (α : Type) := ExceptT BindError (StateM Writer) α

namespace Writer

/-- Runs a computation on the graph of the document. -/
def onGraph {α : Type} (step : Step α) : Writing α := do
  let w ← get
  let (result, graph) := step.run w.graph
  set { w with graph }
  liftExcept result

/-- Adds a remark. -/
def remark (a : Audit) : StateM Writer Unit :=
  modify fun w => { w with audits := w.audits ++ [a] }

/-! ## Making what is missing -/

/-- A new collection for a segment with brackets, of elements of any type. -/
def emptyCollection (g : Graph) (bracket : Option Bracket) : Value × Graph :=
  match bracket with
  | some (.element kind) => g.newSequence kind ⟨.any, []⟩
  | _ => g.newMap ⟨.any, .empty⟩

/-- A new node that can hold the next segment, of the declared type of its place. -/
def intermediate (r : Registry) (path : Path) (declared : Option TypeTag) (next : Option Segment) :
    Step Value :=
  match declared with
  | none | some .any =>
    let brackets := next.bind fun s => if s.name = "" then s.selector.bracket? else none
    .alloc fun g => emptyCollection g brackets
  | some tag =>
    if tag.fieldType = .complex then .attempt fun g => r.instantiate g tag
    else throw (.shape path.text (.notNavigable tag))

/-- A new node for the child that a segment stands for, of the declared type of its place. -/
def newChild (r : Registry) (path : Path) (declared : Option TypeTag) (segment : Segment)
    (next : Option Segment) : Step Value :=
  if segment.isCollection then
    match declared.filter (·.isCollection) with
    | some tag => .attempt fun g => r.instantiate g tag
    | none => .alloc fun g => emptyCollection g segment.selector.bracket?
  else intermediate r path declared next

/-- The child of a value that a segment stands for, made if it is missing. -/
def childOrCreate (r : Registry) (path : Path) (current : Value) (segment : Segment)
    (next : Option Segment) : Step Value := do
  if segment.name = "" then return current
  let existing ← r.child current segment.name
  if !existing.isNull then return existing
  let declared := r.childType? (← get) current segment.name none
  let created ← newChild r path declared segment next
  r.setChild current segment.name created (some ((← get).tagOf created))
  return created

/-- A collection in which the index of a segment is addressable.  A longer array takes the place of the old
one in its owner. -/
def grow (r : Registry) (path : Path) (owner : Value) (segment : Segment) (collection : Value) :
    Step Value := do
  let some index := segment.selector.index? | return collection
  let some (grown, g) := (← get).grow collection index | return collection
  set g
  if grown ≠ collection then
    if segment.name = "" then throw (.shape path.text .nestedArrayGrowth)
    r.setChild owner segment.name grown (some (g.tagOf grown))
  return grown

/-- The element of a collection that a segment stands for, made if it is missing. -/
def elementOrCreate (r : Registry) (path : Path) (collection : Value) (segment : Segment)
    (next : Option Segment) : Step Value := do
  let some slot := segment.selector.slot? | return collection
  let existing := (← get).elementAt collection slot
  if !existing.isNull then return existing
  let created ← intermediate r path ((← get).elementType? collection) next
  set (← liftExcept ((← get).storeElement path collection slot created))
  return created

/-! ## Preparing -/

/-- Makes an index of the root addressable. -/
def growRoot (index : Nat) : StateM Writer Unit :=
  modify fun w =>
    match w.graph.grow w.root index with
    | some (root, graph) => { w with root, graph }
    | none => w

/-- Makes the root if it is missing, and the index of its segment addressable. -/
def ensureRoot (segment : Segment) : StateM Writer Unit := do
  modify fun w =>
    if w.root.isNull then
      let (root, graph) := emptyCollection w.graph segment.selector.bracket?
      { w with root, graph }
    else w
  match segment.selector.index? with
  | some index => growRoot index
  | none => pure ()

/-- Follows segments from a value up to the owner of the last one. -/
def ownerFrom (r : Registry) (path : Path) (current : Value) : List Segment → Step Value
  | [] => return current
  | segment :: rest => do
    if rest.isEmpty && !segment.isCollection then return current
    let child ← childOrCreate r path current segment rest.head?
    if !segment.isCollection then ownerFrom r path child rest
    else
      let collection ← grow r path current segment child
      if rest.isEmpty then return current
      ownerFrom r path (← elementOrCreate r path collection segment rest.head?) rest

/-- Makes what is missing on the way to a path, and returns the owner of its last segment; none if the path
is the root. -/
def prepare (r : Registry) (path : Path) : Writing (Option Value) := do
  if path.hasWildcard then throw (.shape path.text .wildcardWrite)
  ensureRoot path.head
  if path.isRoot then return none
  let root := (← get).root
  let start ←
    if path.head.isCollection then onGraph (elementOrCreate r path root path.head path.tail.head?)
    else pure root
  return some (← onGraph (ownerFrom r path start path.tail))

/-! ## Populating -/

/-- The value of a field converted to a type, if a type of scalars is known.  A value that cannot be
converted is null and leaves a remark: an error where the field is required, and a warning otherwise. -/
def coerce (zone : Zone) (field : Field) (target : Option TypeTag) : StateM Writer Value := do
  let w ← get
  match target with
  | none => return field.value
  | some tag =>
    match w.graph.convertTo zone field.value tag with
    | .ok v => return v
    | .error e =>
      remark
        { status := if field.required then .error else .warn
          path := field.path.text
          message := e.message
          valueText := some (w.graph.text field.value) }
      return .null

/-- The type of the place that a field goes to, if it is known. -/
def targetOf (r : Registry) (root : Value) (field : Field) (owner : Option Value)
    (hint : Option TypeTag) : Step (Option TypeTag) := do
  let terminal := field.path.last
  match field.type, owner with
  | some declared, _ => return some declared
  | none, none =>
    let g ← get
    return if terminal.isCollection then g.elementType? root else none
  | none, some owner =>
    if terminal.isCollection then
      let collection ← r.child owner terminal.name
      return (← get).elementType? collection
    else return r.childType? (← get) owner terminal.name hint

/-- Converts the value of a field and queues it for its owner. -/
def populate (r : Registry) (zone : Zone) (field : Field) (owner : Option Value) :
    Writing Unit := do
  let w ← get
  let terminal := field.path.last
  let hint := if field.value.isNull then none else some (w.graph.tagOf field.value)
  let target ← onGraph (targetOf r w.root field owner hint)
  match owner with
  | some node =>
    unless terminal.isCollection do
      liftExcept (r.requirePlace (← get).graph node terminal.name (target.or hint))
  | none => pure ()
  let value ← coerce zone field target
  modify fun w => { w with pending := w.pending ++ [⟨{ field with value }, owner, target⟩] }

/-- Prepares the path of a field and queues its value. -/
def write (r : Registry) (zone : Zone) (field : Field) : Writing Unit := do
  populate r zone field (← prepare r field.path)

/-- A remark about a field that cannot be written. -/
def failure (field : Field) (e : BindError) : Audit :=
  { status := .error, path := field.path.text, message := e.message }

/-- Writes the fields of a group and returns how many of them are queued.  One that cannot be written leaves
a remark. -/
def writeGroup (r : Registry) (zone : Zone) (group : FieldGroup) : StateM Writer Nat :=
  group.fields.foldlM (fun queued field => do
    match ← (write r zone field).run with
    | .ok () => return queued + 1
    | .error e =>
      remark (failure field e)
      return queued) 0

/-! ## Committing -/

/-- Stores a value in the root, or in the place that the brackets of its segment stand for. -/
def storeRoot (path : Path) (segment : Segment) (v : Value) : Writing Unit := do
  match segment.selector.slot? with
  | none => modify fun w => { w with root := v }
  | some slot =>
    match slot with
    | .index n => growRoot n
    | .key _ => pure ()
    let w ← get
    let graph ← liftExcept (w.graph.storeElement path w.root slot v)
    modify fun w => { w with graph }

/-- Stores a value in the place of an owner that the last segment of a path stands for. -/
def storeChild (r : Registry) (path : Path) (target : Option TypeTag) (owner : Value) (v : Value) :
    Step Unit := do
  let terminal := path.last
  if !terminal.isCollection then
    let g ← get
    r.setChild owner terminal.name v (if v.isNull then target else some (g.tagOf v))
  else
    let some slot := terminal.selector.slot? | throw (.shape path.text .terminalWithoutSlot)
    let collection ← r.child owner terminal.name
    if collection.isNull then throw (.vanished terminal.name)
    let collection ← grow r path owner terminal collection
    set (← liftExcept ((← get).storeElement path collection slot v))

/-- Stores a queued value. -/
def apply (r : Registry) (write : PendingWrite) (v : Value) : Writing Unit :=
  let path := write.field.path
  match write.owner with
  | none => storeRoot path path.last v
  | some owner => onGraph (storeChild r path write.target owner v)

/-- Stores a queued value and counts it.  One that cannot be stored leaves a remark. -/
def storeQueued (r : Registry) (zone : Zone) (stored : Nat) (write : PendingWrite) :
    StateM Writer Nat := do
  let value ← coerce zone write.field write.target
  match ← (apply r write value).run with
  | .ok () => return stored + 1
  | .error e =>
    remark (failure write.field e)
    return stored

/-- Stores the queued values, in order, and returns how many of them are stored. -/
def commit (r : Registry) (zone : Zone) : StateM Writer Nat := do
  let queue := (← get).pending
  modify fun w => { w with pending := [] }
  queue.foldlM (storeQueued r zone) 0

end Writer

end FieldBinding
