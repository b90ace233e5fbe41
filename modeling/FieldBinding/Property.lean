import FieldBinding.Conversion.Rule
import FieldBinding.Fault
import FieldBinding.Json.Basic

/-!
# Properties

A property is a value with a name that a document does not hold itself.  Properties come from sources of
several kinds; a `PropertyResolver` asks the kinds in an order, and the sources of one kind in the order in
which they were added.  The first source that knows the name decides.

The variables of the environment are texts.  A variable also answers to a name that becomes its own when
letters are put in upper case and everything else but digits is replaced by underscores.
-/

namespace FieldBinding

/-- The kinds of sources. -/
inductive SourceKind where
  | environment
  | system
  | mappingDefined
  | runtime
  deriving DecidableEq, Repr

namespace SourceKind

/-- Every kind, in the order in which they are asked unless another is given. -/
def all : List SourceKind :=
  [environment, system, mappingDefined, runtime]

/-- The name of a kind. -/
def name : SourceKind → String
  | environment => "environment"
  | system => "system"
  | mappingDefined => "mapping-defined"
  | runtime => "runtime"

/-- The name of a kind in a description. -/
def label : SourceKind → String
  | environment => "Environment"
  | system => "System"
  | mappingDefined => "MappingDefined"
  | runtime => "Runtime"

/-- Reads a kind. -/
def ofJson? (v : JsonValue) : Option SourceKind :=
  v.plainChoice?.bind fun n => all.find? (·.name = n)

end SourceKind

/-- Where properties come from. -/
inductive PropertySource where
  /-- The variables of the environment with their texts. -/
  | environment (texts : Entries String)
  /-- Values, with the type that is declared for them, if there is one. -/
  | entries (kind : SourceKind) (values : Entries (Value × Option FieldType))

namespace PropertySource

/-- The kind of a source. -/
def kind : PropertySource → SourceKind
  | environment _ => .environment
  | entries kind _ => kind

/-- The name of the variable that stands for a property. -/
def variableName (name : String) : String :=
  name.map fun c => if c.isAlphanum then c.toUpper else '_'

/-- The value of a variable.  A variable has a name, without an equals sign and without the character of
code zero. -/
def variableText (texts : Entries String) (name : String) : Option String :=
  if name.isEmpty ∨ name.toList.any fun c => c = '=' || c = '\x00' then none else texts.get? name

/-- The value of a property, and its declared type. -/
def lookup? (source : PropertySource) (name : String) : Option (Value × Option FieldType) :=
  match source with
  | environment texts =>
    ((variableText texts name).or (variableText texts (variableName name))).map fun text =>
      (.scalar (.string text), some (.scalar .string))
  | entries _ values => values.get? name

end PropertySource

/-- A property that was found. -/
structure ResolvedProperty where
  name : String
  value : Value
  /-- The declared type, or else the type of the value. -/
  type : Option FieldType
  source : SourceKind

/-- Sources of properties, the order in which their kinds are asked, and the clocks of the host. -/
structure PropertyResolver where
  sources : List PropertySource := []
  order : List SourceKind := SourceKind.all
  clock : HostClock := .utc

namespace PropertyResolver

/-- The first source of a kind that knows a name. -/
def ask (r : PropertyResolver) (name : String) (kind : SourceKind) :
    Option (Value × Option FieldType) :=
  (r.sources.filter (·.kind = kind)).findSome? (·.lookup? name)

/-- Looks up a property, asking kinds in an order. -/
def resolveIn (r : PropertyResolver) (g : Graph) (name : String) (order : List SourceKind) :
    Option ResolvedProperty :=
  order.findSome? fun kind =>
    (r.ask name kind).map fun (value, declared) =>
      let inferred := if value.isNull then none else some (g.fieldTypeOf value)
      ⟨name, value, declared.or inferred, kind⟩

/-- Looks up a property. -/
def resolve (r : PropertyResolver) (g : Graph) (name : String) : Option ResolvedProperty :=
  r.resolveIn g name r.order

/-- Looks up a property and converts it, in the zone of the host. -/
def resolveAs (r : PropertyResolver) (g : Graph) (name : String) (order : List SourceKind)
    (target : FieldType) : Except BindError (Option ResolvedProperty) :=
  match r.resolveIn g name order with
  | none => .ok none
  | some found =>
    match g.convert (.host r.clock) found.value found.type target with
    | .ok value => .ok (some { found with value, type := some target })
    | .error e => .error (.conversion e)

/-- A description of a resolver: the kinds of its sources, and their order. -/
def text (r : PropertyResolver) : String :=
  let labels (kinds : List SourceKind) : String := "[" ++ ", ".intercalate (kinds.map (·.label)) ++ "]"
  "PropertyResolver \x7b sources: " ++ labels (r.sources.map (·.kind)) ++ ", order: " ++ labels r.order ++
    " \x7d"

end PropertyResolver

end FieldBinding
