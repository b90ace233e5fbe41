import FieldBinding.Json.Basic

/-!
# Delimiters

What stands between the items of a delimited text.  Every delimiter has a text that joins items.  Items are
parted at that text as well, except by the delimiter `multiSpace`, which parts them at any white space.
-/

namespace FieldBinding

/-- What stands between the items of a delimited text. -/
inductive Delimiter where
  | space
  /-- Joins with a space and parts at any run of white space. -/
  | multiSpace
  | comma
  | colon
  | semicolon
  | slash
  | backslash
  | dash
  | period
  | pipe
  | hash
  | equal
  | ampersand
  | underscore
  | custom (text : String)
  deriving DecidableEq, Repr

namespace Delimiter

/-- The text that joins items. -/
def text : Delimiter → String
  | space | multiSpace => " "
  | comma => ","
  | colon => ":"
  | semicolon => ";"
  | slash => "/"
  | backslash => "\\"
  | dash => "-"
  | period => "."
  | pipe => "|"
  | hash => "#"
  | equal => "="
  | ampersand => "&"
  | underscore => "_"
  | custom text => text

/-- Whether items are parted at any white space. -/
def isPattern : Delimiter → Bool
  | multiSpace => true
  | _ => false

/-- The delimiters with a name. -/
def named : List (String × Delimiter) :=
  [("space", space), ("multi-space", multiSpace), ("comma", comma), ("colon", colon),
    ("semicolon", semicolon), ("slash", slash), ("backslash", backslash), ("dash", dash),
    ("period", period), ("pipe", pipe), ("hash", hash), ("equal", equal), ("ampersand", ampersand),
    ("underscore", underscore)]

/-- Writes a delimiter: its name, or an object with the text of its own. -/
def toJson (d : Delimiter) : JsonValue :=
  match d, named.find? (·.2 = d) with
  | custom text, _ => .ofMembers [("custom", .ofString text)]
  | _, some (name, _) => .ofString name
  | _, none => .null

/-- Reads a delimiter. -/
def ofJson? (v : JsonValue) : Option Delimiter :=
  match v.choice? with
  | some ("custom", some text) => text.string?.map custom
  | _ => v.plainChoice?.bind fun name => named.lookup name

/-- A delimiter can be read back from what is written for it. -/
theorem ofJson?_toJson (d : Delimiter) : ofJson? d.toJson = some d := by
  cases d <;> rfl

end Delimiter

end FieldBinding
