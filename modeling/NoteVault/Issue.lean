/-!
Issues of notes: what is wrong, how bad it is, and where in the front matter.
-/
namespace NoteVault

inductive Severity where
  | error | warning
  deriving DecidableEq, Repr

def Severity.name : Severity → String
  | error => "error"
  | warning => "warning"

/-- The label of an issue in reports. -/
def Severity.label : Severity → String
  | error => "ERROR"
  | warning => "WARNING"

inductive IssueCode where
  | missing | parseError | missingType | unknownType | mappedType | schemaInvalid | unknownKey
  | tagsNotArray | staleSummary | duplicateId | missingReference
  deriving DecidableEq, Repr

/-- The stable name of a code. -/
def IssueCode.name : IssueCode → String
  | missing => "FM_MISSING"
  | parseError => "FM_PARSE_ERROR"
  | missingType => "FM_MISSING_TYPE"
  | unknownType => "FM_UNKNOWN_TYPE"
  | mappedType => "FM_MAPPED_TYPE"
  | schemaInvalid => "FM_SCHEMA_INVALID"
  | unknownKey => "FM_UNKNOWN_KEY"
  | tagsNotArray => "FM_TAGS_NOT_ARRAY"
  | staleSummary => "FM_STALE_SUMMARY"
  | duplicateId => "VAULT_DUPLICATE_ID"
  | missingReference => "VAULT_MISSING_REFERENCE"

/-- One issue; `path` leads to a field, and a suggestion may say what to do. -/
structure Issue where
  severity : Severity
  code : IssueCode
  message : String
  path : List String
  suggestion : Option String
  deriving DecidableEq, Repr

namespace Issue

def error (code : IssueCode) (message : String) (path : List String) : Issue :=
  ⟨.error, code, message, path, none⟩

def warning (code : IssueCode) (message : String) (path : List String) : Issue :=
  ⟨.warning, code, message, path, none⟩

def isError (i : Issue) : Bool := i.severity = .error

/-- How many issues are errors, and how many are warnings. -/
def count (issues : List Issue) : Nat × Nat :=
  (issues.countP isError, issues.countP (!isError ·))

/-- A suggestion that says something. -/
def advice (i : Issue) : Option String := i.suggestion.filter (· ≠ "")

theorem count_add (issues : List Issue) : (count issues).1 + (count issues).2 = issues.length := by
  simp only [count]
  induction issues with
  | nil => rfl
  | cons i rest ih => by_cases h : i.isError <;> simp_all <;> omega

end Issue

end NoteVault
