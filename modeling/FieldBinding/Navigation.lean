import FieldBinding.Registry.Accessor
import FieldBinding.Path.Basic

/-!
# Moving through a graph

One step of a path goes from a node to the child that a name stands for.

| node | child |
|---|---|
| object of a registered type | what the getter yields, or the member |
| object of any other type | the raw member |
| map | the entry |
| any value, and the empty name | the value itself |

A `Step` reads and changes a graph and may fail.  What it changed before it failed stays changed.
-/

namespace FieldBinding

/-- A computation on a graph that may fail. -/
abbrev Step (α : Type) := ExceptT BindError (StateM Graph) α

namespace Step

/-- Runs a function that makes new nodes. -/
def alloc {α : Type} (f : Graph → α × Graph) : Step α :=
  modifyGet f

/-- Runs a function that may make new nodes and may fail. -/
def attempt {α : Type} (f : Graph → Except BindError (α × Graph)) : Step α := do
  match f (← get) with
  | .ok (a, g) => set g; return a
  | .error e => throw e

/-- The value that a getter yields. -/
def ofYield : Yield → Step Value
  | .held v => return v
  | .fresh content => alloc (·.plant content)

end Step

namespace Registry

/-- A member of an object; one that is missing is null. -/
def rawMember (o : Object) (name : String) : Value :=
  (o.members.get? name).getD .null

/-- The child of a value that a name stands for.  What is missing is null; a scalar has no children. -/
def child (r : Registry) (current : Value) (name : String) : Step Value := do
  if name = "" then return current
  match current with
  | .object id =>
    let g ← get
    let o := g.object id
    if !r.contains o.typeName then return rawMember o name
    match r.getter? o.typeName name with
    | some getter => Step.ofYield (getter.read g o)
    | none =>
      match r.member? o.typeName name with
      | some m => return rawMember o m.name
      | none => throw (.noAccessor o.typeName name)
  | .map id => return (((← get).map id).entries.get? name).getD .null
  | _ => throw (.noAccessor current.kindName name)

/-- Where a value can be stored in an object: with a setter, or in a member. -/
inductive Place where
  | setter (s : Setter)
  | member (m : Member)

namespace Place

/-- The type of a place. -/
def type : Place → TypeTag
  | setter s => s.parameter
  | member m => m.declared

/-- The object with a value stored in a place. -/
def store (o : Object) (v : Value) : Place → Except BindError Object
  | setter s => (s.store o v).mapError .refused
  | member m => .ok (o.setMember m.name v)

end Place

/-- The place of a field in the objects of a registered type, for a value of a type if it is known.  Only a
field without a fitting setter is looked for among the members. -/
def place (r : Registry) (typeName field : String) (hint : Option TypeTag) : Except BindError Place :=
  match r.setter typeName field hint with
  | .ok s => .ok (.setter s)
  | .error (.noAccessor typeName field) =>
    match r.member? typeName field with
    | some m => .ok (.member m)
    | none => .error (.noAccessor typeName field)
  | .error e => .error e

/-- Stores a value as the child of an object or a map.  Null is not stored where primitives are never
null. -/
def setChild (r : Registry) (owner : Value) (name : String) (v : Value) (hint : Option TypeTag) :
    Step Unit := do
  match owner with
  | .object id =>
    let o := (← get).object id
    if !r.contains o.typeName then modify (·.setObject id (o.setMember name v))
    else
      let place ← liftExcept (r.place o.typeName name hint)
      unless v.isNull && !place.type.isNullable do
        let stored ← liftExcept (place.store o v)
        modify (·.setObject id stored)
  | .map id => modify (·.setEntry id name v)
  | _ => throw (.noAccessor owner.kindName name)

/-- The declared type of a child, if it is known.  The setter that a value of the hinted type goes through
comes first. -/
def childType? (r : Registry) (g : Graph) (owner : Value) (name : String) (hint : Option TypeTag) :
    Option TypeTag :=
  match owner with
  | .object id =>
    let typeName := (g.object id).typeName
    let hinted := hint.bind fun tag => (r.setter typeName name (some tag)).toOption
    (hinted.map (·.parameter)).or (r.declared? typeName name)
  | .map id => some (g.map id).element |>.filter (· ≠ .any)
  | _ => none

/-- Fails if the objects of a registered type have no place for a field. -/
def requirePlace (r : Registry) (g : Graph) (owner : Value) (name : String) (hint : Option TypeTag) :
    Except BindError Unit :=
  match owner with
  | .object id =>
    let typeName := (g.object id).typeName
    if !r.contains typeName then .ok () else (r.place typeName name hint).map fun _ => ()
  | _ => .ok ()

end Registry

/-! ## Elements of collections -/

namespace Graph

/-- The element or entry at a place of a collection; null if there is none. -/
def elementAt (g : Graph) (collection : Value) (slot : Slot) : Value :=
  match collection, slot with
  | .sequence _ id, .index n => ((g.sequence id).items[n]?).getD .null
  | .map id, .key key => ((g.map id).entries.get? key).getD .null
  | .map id, .index n => ((g.map id).entries.get? (Numeral.text n)).getD .null
  | _, _ => .null

/-- All elements or entries of a collection with their places, in order. -/
def elements (g : Graph) (collection : Value) : List (Slot × Value) :=
  match collection with
  | .sequence _ id => (g.sequence id).items.zipIdx.map fun e => (.index e.2, e.1)
  | .map id => (g.map id).entries.toList.map fun e => (.key e.1, e.2)
  | _ => []

/-- The declared type of the elements of a collection, if it says anything. -/
def elementType? (g : Graph) (collection : Value) : Option TypeTag :=
  (g.tagOf collection).element?.filter (· ≠ .any)

/-- Stores a value at a place of a collection that is large enough. -/
def storeElement (g : Graph) (path : Path) (collection : Value) (slot : Slot) (v : Value) :
    Except BindError Graph :=
  match collection, slot with
  | .sequence _ id, .index n =>
    match g.setItem? id n v with
    | some g => .ok g
    | none => .error (.shape path.text (.pastEnd n (g.sequence id).items.length))
  | .map id, .key key => .ok (g.setEntry id key v)
  | .map id, .index n => .ok (g.setEntry id (Numeral.text n) v)
  | _, _ => .error (.shape path.text (.cannotHold (g.tagOf collection) slot))

end Graph

end FieldBinding
