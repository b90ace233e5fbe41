/-!
# Audits

An `Audit` is a remark on one place of a document: what was noticed there while a field was read or written.
`Audits` collects them in order.  A collector for a document stamps its name on every audit that does not
name one.
-/

namespace FieldBinding

/-- How serious a remark is. -/
inductive AuditStatus where
  | info
  | warn
  | error
  deriving DecidableEq, Repr

/-- The name of a status. -/
def AuditStatus.name : AuditStatus → String
  | info => "INFO"
  | warn => "WARN"
  | error => "ERROR"

/-- A remark on a place of a document. -/
structure Audit where
  status : AuditStatus
  docId : Option String := none
  path : String
  message : String
  /-- The text of the value that the remark is about. -/
  valueText : Option String := none
  deriving DecidableEq, Repr

/-- The text of a remark. -/
def Audit.text (a : Audit) : String :=
  "[" ++ a.status.name ++ "] " ++ a.path ++ ": " ++ a.message ++
    match a.valueText with
    | none => ""
    | some value => " (value: " ++ value ++ ")"

/-- Remarks in the order in which they were made. -/
structure Audits where
  docId : Option String := none
  entries : List Audit := []
  deriving DecidableEq, Repr

namespace Audits

/-- The collection with one more remark. -/
def record (c : Audits) (a : Audit) : Audits :=
  { c with entries := c.entries ++ [{ a with docId := a.docId.or c.docId }] }

/-- The collection with more remarks. -/
def recordAll (c : Audits) (as : List Audit) : Audits :=
  as.foldl record c

/-- The remarks of a status. -/
def withStatus (c : Audits) (status : AuditStatus) : List Audit :=
  c.entries.filter (·.status = status)

/-- Whether there is a remark about an error. -/
def hasErrors (c : Audits) : Bool :=
  c.entries.any (·.status = .error)

end Audits

end FieldBinding
