import FieldBinding.Fault
import FieldBinding.Graph.Renaming
import FieldBinding.Graph.Tree
import FieldBinding.Text.UpperCase

/-!
# Descriptions of object types

A `Descriptor` says what is known of the objects of one named type: its ancestors, whether it is abstract,
how a new object is made, its members, and the getters and setters of its fields.

Members are the raw places of an object.  A getter computes a value from an object and whatever can be reached
from it; a setter makes an object with the value stored, or refuses the value, in which case the object stays
as it was.  The getter of a field is named by `get` or `is` and the name of the field with its first letter in
upper case, and its setters by `set`.  There is one getter of a name, and a setter for each type that the
field can be set from.

A getter reads one property of an object, and a setter writes one.  A host that registers them promises this, and
readers and writers rely on it: `Getter` and `Setter` carry it as laws.  A getter cannot tell where a node is stored:
in a graph that is found inside another, it yields the same on both sides.  A setter cannot tell where a node is stored
either; and the type of an object is none of its properties, so an object stays of its type when one is written.

These descriptions are narrower than what a host may register.  Left out are accessors with a state of their own,
whose answers change from call to call; getters and setters that hand out a node that their host has kept, other than
as new nodes of fixed content; getters that change the graph; setters that look into the nodes that they are given,
change other nodes than the object, or make new ones; setters that turn the object into one of another type; and
factories whose objects are not the same each time.
-/

namespace FieldBinding

/-- What a getter yields: a value that the object holds, or new nodes with a given content. -/
inductive Yield where
  | held (v : Value)
  | fresh (content : Tree)

/-- What is yielded, with a value that is held at its new address. -/
def Yield.rename (ρ : Renaming) : Yield → Yield
  | held v => held (v.rename ρ)
  | fresh content => fresh content

/-- A named way to read one property of an object. -/
structure Getter where
  name : String
  result : TypeTag
  read : Graph → Object → Yield
  /-- What is yielded does not depend on addresses. -/
  read_rename : ∀ (ρ : Renaming) (g h : Graph) (o : Object), g.Closed → g.Embeds ρ h →
    (∀ e ∈ o.members.toList, g.Has e.2) → read h (o.rename ρ) = (read g o).rename ρ

/-- A named way to write one property of an object; a refusal gives its reason. -/
structure Setter where
  name : String
  parameter : TypeTag
  store : Object → Value → Except String Object
  /-- What is written is a property of the object, which stays of its type. -/
  store_typeName : ∀ (o o' : Object) (v : Value), store o v = .ok o' → o'.typeName = o.typeName
  /-- What is stored does not depend on addresses, as long as no two nodes fall together. -/
  store_rename : ∀ ρ : Renaming, (∀ v w : Value, v.rename ρ = w.rename ρ → v = w) →
    ∀ (o : Object) (v : Value), store (o.rename ρ) (v.rename ρ) = (store o v).map (Object.rename ρ)

/-- A raw place of an object, with its declared type. -/
structure Member where
  name : String
  declared : TypeTag
  deriving DecidableEq, Repr

/-- What a new object looks like. -/
structure Blueprint where
  typeName : String
  members : List (String × Tree)

/-- What is known of the objects of a type. -/
structure Descriptor where
  name : String
  ancestors : List String
  isAbstract : Bool
  blueprint : Option Blueprint
  members : List Member
  getters : Entries Getter
  setters : Entries (List Setter)

/-- The name of an accessor: the field with its first letter in upper case behind a verb. -/
def accessorName (verb field : String) : String :=
  match field.toList with
  | [] => verb
  | c :: rest => verb ++ String.ofList (Text.upper c ++ rest)

/-- The setter with its parameter. -/
def Setter.signature (s : Setter) : String :=
  s.name ++ "(" ++ s.parameter.text ++ ")"

/-- The getter with its result. -/
def Getter.signature (g : Getter) : String :=
  g.name ++ "() -> " ++ g.result.text

namespace Getter

/-- The getter that reads a raw member; a member that is missing is null. -/
def ofMember (name : String) (result : TypeTag) (member : String) : Getter :=
  { name, result
    read := fun _ o => .held ((o.members.get? member).getD .null)
    read_rename := fun ρ _ _ o _ _ _ => by
      simp only [Object.rename, Entries.get?_map, Yield.rename]
      cases o.members.get? member <;> rfl }

/-- The getter that always yields the same content. -/
def ofConstant (name : String) (result : TypeTag) (content : Tree) : Getter :=
  { name, result
    read := fun _ _ => .fresh content
    read_rename := fun _ _ _ _ _ _ _ => rfl }

end Getter

/-- The object with a value in a raw member. -/
def Object.setMember (o : Object) (member : String) (v : Value) : Object :=
  { o with members := o.members.insert member v }

namespace Setter

/-- The setter that stores into a raw member. -/
def ofMember (name : String) (parameter : TypeTag) (member : String) : Setter :=
  { name, parameter
    store := fun o v => .ok (o.setMember member v)
    store_typeName := fun _ _ _ stored => Except.ok.inj stored ▸ rfl
    store_rename := fun ρ _ o v => by
      simp only [Except.map, Object.rename, Object.setMember, Entries.map_insert] }

/-- The setter that refuses every value. -/
def ofRefusal (name : String) (parameter : TypeTag) (reason : String) : Setter :=
  { name, parameter
    store := fun _ _ => .error reason
    store_typeName := fun _ _ _ stored => nomatch stored
    store_rename := fun _ _ _ _ => rfl }

end Setter

namespace Descriptor

/-- The type of a name without anything known of it. -/
def ofName (name : String) : Descriptor :=
  ⟨name, [], false, none, [], .empty, .empty⟩

/-- The description with one more member, which replaces a member of its name. -/
def addMember (d : Descriptor) (name : String) (declared : TypeTag) : Descriptor :=
  { d with members := d.members.filter (·.name ≠ name) ++ [⟨name, declared⟩] }

/-- The description with one more getter, which replaces a getter of its name. -/
def addGetter (d : Descriptor) (g : Getter) : Descriptor :=
  { d with getters := d.getters.insert g.name g }

/-- The description with one more setter beside those of its name. -/
def addSetter (d : Descriptor) (s : Setter) : Descriptor :=
  { d with setters := d.setters.insert s.name (((d.setters.get? s.name).getD []) ++ [s]) }

/-- The description with one more field: a member with a getter and a setter.  The getter of a truth value
that is never null begins with `is`. -/
def addField (d : Descriptor) (name : String) (declared : TypeTag) : Descriptor :=
  let verb := if declared = .primitive .boolean then "is" else "get"
  ((d.addMember name declared).addGetter (.ofMember (accessorName verb name) declared name)).addSetter
    (.ofMember (accessorName "set" name) declared name)

/-- The member with a name. -/
def member? (d : Descriptor) (name : String) : Option Member :=
  d.members.find? (·.name = name)

/-- What a member holds before anything is written to it. -/
def initial (declared : TypeTag) : Value :=
  match declared with
  | .primitive kind => .scalar (.zero kind)
  | _ => .null

/-- A new object of the type, if nothing else is known of new objects: its own members, with zeros in those
that are never null. -/
def defaultObject (d : Descriptor) : Object :=
  ⟨d.name, .ofList (d.members.map fun m => (m.name, initial m.declared))⟩

end Descriptor

end FieldBinding
