import NoteVault.Number.Shortest
import NoteVault.Text.Quoted
import NoteVault.Value

/-!
Values as they stand in messages, and the names of their kinds. `display` shows texts between quotes,
`plain` shows a text or a date as it is.
-/
namespace NoteVault

/-- A clock's distance from universal time. -/
def DateTime.displayOffset (seconds : Int) : String :=
  if seconds = 0 then "datetime.timezone.utc"
  else "datetime.timezone(" ++ Calendar.durationDisplay seconds ++ ")"

/-- The numbers of a point in time; seconds and microseconds only when there are any. -/
def DateTime.display (t : DateTime) : String :=
  let tail :=
    if t.microsecond ≠ 0 then [t.second, t.microsecond] else if t.second ≠ 0 then [t.second] else []
  let numbers := [t.date.year, t.date.month, t.date.day, t.hour, t.minute] ++ tail
  let zone := match t.offset with
    | none => []
    | some seconds => ["tzinfo=" ++ DateTime.displayOffset seconds]
  "datetime.datetime(" ++ ", ".intercalate (numbers.map toString ++ zone) ++ ")"

def Date.display (d : Date) : String :=
  "datetime.date(" ++ ", ".intercalate ([d.year, d.month, d.day].map toString) ++ ")"

namespace Value

def displaySet (members : List String) : String :=
  if members.isEmpty then "set()" else
    "\x7b" ++ ", ".intercalate (members.map Text.quoted) ++ "\x7d"

mutual

/-- A value as a message shows it. -/
def display : Value → String
  | null => "None"
  | bool b => if b then "True" else "False"
  | int n => toString n
  | float x => x.text
  | str s => Text.quoted s
  | list items => "[" ++ ", ".intercalate (displayList items) ++ "]"
  | map entries => "\x7b" ++ ", ".intercalate (displayEntries entries) ++ "\x7d"
  | tuple [v] => "(" ++ display v ++ ",)"
  | tuple items => "(" ++ ", ".intercalate (displayList items) ++ ")"
  | set members => displaySet members
  | bytes octets => Text.quotedOctets octets
  | date d => d.display
  | datetime t => t.display
  | shared _ v => display v

def displayList : List Value → List String
  | [] => []
  | v :: rest => display v :: displayList rest

def displayEntries : List (String × Value) → List String
  | [] => []
  | (k, v) :: rest => (Text.quoted k ++ ": " ++ display v) :: displayEntries rest

end

/-- A value as plain text: texts and dates as they are, anything else as `display` shows it. -/
def plain (v : Value) : String :=
  match v.bare with
  | str s => s
  | date d => d.text
  | datetime t => t.text " "
  | w => w.display

/-- The kind of a value in the words of a schema. -/
def schemaKind (v : Value) : String :=
  match v.bare with
  | null => "null"
  | bool _ => "boolean"
  | int _ | float _ => "number"
  | str _ => "string"
  | list _ => "array"
  | map _ => "object"
  | tuple _ => "tuple"
  | set _ => "set"
  | bytes _ => "bytes"
  | date _ => "date"
  | _ => "datetime"

/-- The kind of a value in the words of the header's reader. -/
def kind (v : Value) : String :=
  match v.bare with
  | null => "NoneType"
  | bool _ => "bool"
  | int _ => "int"
  | float _ => "float"
  | str _ => "str"
  | list _ => "list"
  | map _ => "dict"
  | tuple _ => "tuple"
  | set _ => "set"
  | bytes _ => "bytes"
  | date _ => "date"
  | _ => "datetime"

example : (map [("k", tuple [int 1]), ("l", list [null, str "a"])]).display =
    "\x7b'k': (1,), 'l': [None, 'a']\x7d" := by decide +kernel

end Value

end NoteVault
