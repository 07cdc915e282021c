import NoteVault.Calendar
import NoteVault.Text.Digit
import NoteVault.Value.Digits
import NoteVault.Value.Display

/-!
Fields of a document type: what values they take, whether they may be missing, and what a new document
gets for them.
-/
namespace NoteVault

/-- The kinds of fields, which are also the kinds that items of an array may have. -/
inductive FieldKind where
  | string | date | literal | enum | array | object
  deriving DecidableEq, Repr

def FieldKind.name : FieldKind → String
  | string => "string"
  | date => "date"
  | literal => "literal"
  | enum => "enum"
  | array => "array"
  | object => "object"

/-- What values a field takes. -/
inductive FieldType where
  | string (minLength : Int)
  | date
  | literal (value : Value)
  | enum (values : List Value)
  | array (items : Option FieldKind)
  | object
  deriving DecidableEq

namespace FieldType

def kind : FieldType → FieldKind
  | string _ => .string
  | date => .date
  | literal _ => .literal
  | enum _ => .enum
  | array _ => .array
  | object => .object

/-- The type of an array's items, which is not constrained any further. -/
def ofKind : FieldKind → FieldType
  | .string => string 0
  | .date => date
  | .literal => literal .null
  | .enum => enum []
  | .array => array none
  | .object => object

end FieldType

/-- Why a value does not fit a field. -/
inductive FieldProblem where
  | wrongKind (expected received : String)
  | tooShort (minLength : Int)
  | noDate (text : String)
  | notLiteral (literal : Value)
  | notInEnum (values : List Value) (received : Value)
  | item (position : Nat) (problem : FieldProblem)

def FieldProblem.text : FieldProblem → String
  | wrongKind expected received => "Expected " ++ expected ++ ", received " ++ received
  | tooShort n => "String must contain at least " ++ toString n ++ " character(s)"
  | noDate s => "Invalid date " ++ Text.quoted s ++ ", expected YYYY-MM-DD"
  | notLiteral v => "Invalid literal value, expected " ++ v.display
  | notInEnum values received =>
    "Invalid enum value. Expected " ++ " | ".intercalate (values.map Value.display) ++ ", received " ++
      received.display
  | item n p => "Item " ++ toString n ++ ": " ++ p.text

/-- The wording of a problem shows an integer that cannot be written. -/
def FieldProblem.isLong : FieldProblem → Bool
  | tooShort minLength => (Value.int minLength).hasLongInteger
  | notLiteral literal => literal.hasLongInteger
  | notInEnum values received => Value.anyLongInteger values || received.hasLongInteger
  | item _ p => p.isLong
  | wrongKind _ _ => false
  | noDate _ => false

/-- The whole text has the form of a day, with digits of any script; a line feed may end it. -/
def hasDayForm (s : List Char) : Bool := Text.afterDay? s = some [] || Text.afterDay? s = some ['\n']

/-- A real day of the calendar, written with four, two and two digits. -/
def isIsoDate (s : String) : Bool := hasDayForm s.toList && (Date.ofText? s.toList).isSome

namespace FieldType

/-- Texts are measured in characters. -/
def checkString (minLength : Int) (v : Value) : Option FieldProblem :=
  match v.bare with
  | .str s => if (s.length : Int) < minLength then some (.tooShort minLength) else none
  | w => some (.wrongKind "string" w.schemaKind)

def checkDate (v : Value) : Option FieldProblem :=
  match v.bare with
  | .str s => if isIsoDate s then none else some (.noDate s)
  | w => some (.wrongKind "string" w.schemaKind)

/-- A literal agrees with the value and is of its kind. -/
def checkLiteral (literal v : Value) : Option FieldProblem :=
  if v.agrees literal && v.kind = literal.kind then none else some (.notLiteral literal)

def checkEnum (values : List Value) (v : Value) : Option FieldProblem :=
  if values.any fun w => v.agrees w then none else some (.notInEnum values v)

def checkObject (v : Value) : Option FieldProblem :=
  match v.bare with
  | .map _ => none
  | w => some (.wrongKind "object" w.schemaKind)

/-- An array whose items are checked, and the first of them that does not fit. -/
def checkArray (checkItem : Value → Option FieldProblem) (v : Value) : Option FieldProblem :=
  match v.bare with
  | .list items => ((items.zipIdx).findSome? fun (item, n) => (checkItem item).map (.item n ·))
  | w => some (.wrongKind "array" w.schemaKind)

/-- Checks a value against a kind without constraints. -/
def checkKind (kind : FieldKind) (v : Value) : Option FieldProblem :=
  match kind with
  | .string => checkString 0 v
  | .date => checkDate v
  | .literal => checkLiteral .null v
  | .enum => checkEnum [] v
  | .array => checkArray (fun _ => none) v
  | .object => checkObject v

/-- The problem of a value, if it does not fit. -/
def check (t : FieldType) (v : Value) : Option FieldProblem :=
  match t with
  | string n => checkString n v
  | date => checkDate v
  | literal w => checkLiteral w v
  | enum values => checkEnum values v
  | array none => checkArray (fun _ => none) v
  | array (some kind) => checkArray (checkKind kind) v
  | object => checkObject v

end FieldType

/-- A field of a document type. -/
structure Field where
  name : String
  type : FieldType
  optional : Bool
  default : Option Value
  description : String
  deriving DecidableEq

namespace Field

/-- Neither optional nor with a default. -/
def required (f : Field) : Bool := !f.optional && f.default.isNone

/-- What a new document gets for the field. -/
def defaultValue (f : Field) : Value :=
  match f.type, f.default with
  | .literal v, _ => v
  | _, some v => v
  | .enum (v :: _), none => v
  | .array _, none => .list []
  | .object, none => .map []
  | _, none => .str ""

def check (f : Field) (v : Value) : Option FieldProblem := f.type.check v

/-- The field takes lists. -/
def isArray (f : Field) : Bool := f.type.kind = .array

def string (name : String) (minLength : Int) (optional : Bool) (description : String) : Field :=
  ⟨name, .string minLength, optional, none, description⟩

def optionalDate (name description : String) : Field := ⟨name, .date, true, none, description⟩

def literal (name value description : String) : Field :=
  ⟨name, .literal (.str value), false, none, description⟩

def enum (name : String) (values : List String) (optional : Bool) (default : Option String)
    (description : String) : Field :=
  ⟨name, .enum (values.map .str), optional, default.map .str, description⟩

def array (name : String) (optional : Bool) (default : Option (List Value)) (description : String) : Field :=
  ⟨name, .array (some .string), optional, default.map .list, description⟩

end Field

example : ((FieldType.array (some .date)).check (.list [.str "2024-01-01", .str "x"])).map (·.text) =
    some "Item 1: Invalid date 'x', expected YYYY-MM-DD" := by decide +kernel

end NoteVault
