import FieldBinding.Json.Token

/-!
# JSON values

`JsonValue.parse?` reads a JSON text: it goes through the tokens once, with a stack of the arrays and
objects that are still open.  They may stand inside each other to any depth.

An object keeps its members in the order of the text, with all members of one name, so that a reader can
refuse a name that is given twice.
-/

namespace FieldBinding

/-- A JSON value. -/
inductive JsonValue where
  | null
  | bool (b : Bool)
  | number (spelling : List Char)
  | text (content : JsonText)
  | array (items : List JsonValue)
  | object (members : List (JsonText × JsonValue))
  deriving Inhabited, Repr

namespace JsonValue

/-- An array or object that is still open: what has been read of it, the last first. -/
inductive Frame where
  | array (items : List JsonValue)
  /-- The value of the named member is being read. -/
  | object (members : List (JsonText × JsonValue)) (name : JsonText)

/-- What the reader of a text has seen. -/
inductive State where
  /-- A value has to follow. -/
  | value (stack : List Frame)
  /-- An array has been opened. -/
  | firstItem (stack : List Frame)
  /-- An object has been opened. -/
  | firstName (stack : List Frame)
  /-- The name of a further member has to follow. -/
  | name (members : List (JsonText × JsonValue)) (stack : List Frame)
  /-- The colon behind a name has to follow. -/
  | colon (members : List (JsonText × JsonValue)) (name : JsonText) (stack : List Frame)
  /-- A value has been read. -/
  | read (v : JsonValue) (stack : List Frame)

/-- The state behind the first token of a value. -/
def begin? (stack : List Frame) : JsonToken → Option State
  | .null => some (.read .null stack)
  | .bool b => some (.read (.bool b) stack)
  | .number spelling => some (.read (.number spelling) stack)
  | .text content => some (.read (.text content) stack)
  | .openArray => some (.firstItem stack)
  | .openObject => some (.firstName stack)
  | _ => none

/-- The state behind one more token. -/
def State.next? : State → JsonToken → Option State
  | .value stack, token => begin? stack token
  | .firstItem stack, .closeArray => some (.read (.array []) stack)
  | .firstItem stack, token => begin? (.array [] :: stack) token
  | .firstName stack, .closeObject => some (.read (.object []) stack)
  | .firstName stack, .text n => some (.colon [] n stack)
  | .name members stack, .text n => some (.colon members n stack)
  | .colon members n stack, .colon => some (.value (.object members n :: stack))
  | .read v (.array items :: stack), .comma => some (.value (.array (v :: items) :: stack))
  | .read v (.array items :: stack), .closeArray => some (.read (.array (v :: items).reverse) stack)
  | .read v (.object members n :: stack), .comma => some (.name ((n, v) :: members) stack)
  | .read v (.object members n :: stack), .closeObject =>
    some (.read (.object ((n, v) :: members).reverse) stack)
  | _, _ => none

/-- The value that a text writes. -/
def parse? (text : List Char) : Option JsonValue := do
  let tokens ← JsonToken.ofChars? text
  match ← tokens.foldlM State.next? (.value []) with
  | .read v [] => some v
  | _ => none

/-! ## Readings -/

/-- A text with content. -/
def ofString (s : String) : JsonValue :=
  text (some s)

/-- The number of a count. -/
def ofNat (n : Nat) : JsonValue :=
  number (Numeral.digits n)

/-- The value of a member that may be missing. -/
def ofOption (v : Option JsonValue) : JsonValue :=
  v.getD null

/-- An object with members of the given names. -/
def ofMembers (members : List (String × JsonValue)) : JsonValue :=
  object (members.map fun m => (some m.1, m.2))

/-- The content of a text. -/
def string? : JsonValue → Option String
  | text content => content
  | _ => none

/-- The truth value. -/
def bool? : JsonValue → Option Bool
  | bool b => some b
  | _ => none

/-- The count that a number without sign, point and exponent stands for. -/
def count? : JsonValue → Option Nat
  | number spelling => (Numeral.value? spelling).filter (· ≤ Numeral.indexMax)
  | _ => none

/-- The items of an array. -/
def array? : JsonValue → Option (List JsonValue)
  | array items => some items
  | _ => none

/-- Reads a value that may be null. -/
def optional? {α : Type} (read : JsonValue → Option α) : JsonValue → Option (Option α)
  | null => some none
  | v => (read v).map some

/-- A name alone, or a name with a value: the two forms of one of several choices. -/
def choice? : JsonValue → Option (String × Option JsonValue)
  | text content => content.map fun name => (name, none)
  | object [(some name, v)] => some (name, some v)
  | _ => none

/-- A choice without a value; it can be written with a null. -/
def plainChoice? (v : JsonValue) : Option String :=
  match v.choice? with
  | some (name, none) | some (name, some null) => some name
  | _ => none

end JsonValue

end FieldBinding
