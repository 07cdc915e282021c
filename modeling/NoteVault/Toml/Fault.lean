import NoteVault.Number.Limit
import NoteVault.Value.Display

/-!
Why a settings file cannot be read, and where. A place in the file is given by the number of characters
that are left.
-/
namespace NoteVault.Toml

/-- The names on the way to a table or a value. -/
abbrev Key := List String

inductive Problem where
  | statement
  | afterStatement
  | declaredTwice (key : Key)
  | overwritten
  | tableEnd
  | arrayEnd
  | immutable (key : Key)
  | redefined (key : Key)
  | noEquals
  | keyStart
  | unclosedArray
  | duplicateKey (name : String)
  | unclosedTable
  | escape
  | hexadecimal
  | codePoint
  | unterminated
  | illegal (c : Char)
  | misplaced (c : Char)
  | noClosing (quotes : String)
  | date
  | value
  deriving DecidableEq, Repr

/-- A key between brackets. -/
def displayKey (key : Key) : String := (Value.tuple (key.map .str)).display

def Problem.text : Problem → String
  | statement => "Invalid statement"
  | afterStatement => "Expected newline or end of document after a statement"
  | declaredTwice key => "Cannot declare " ++ displayKey key ++ " twice"
  | overwritten => "Cannot overwrite a value"
  | tableEnd => "Expected ']' at the end of a table declaration"
  | arrayEnd => "Expected ']]' at the end of an array declaration"
  | immutable key => "Cannot mutate immutable namespace " ++ displayKey key
  | redefined key => "Cannot redefine namespace " ++ displayKey key
  | noEquals => "Expected '=' after a key in a key/value pair"
  | keyStart => "Invalid initial character for a key part"
  | unclosedArray => "Unclosed array"
  | duplicateKey name => "Duplicate inline table key " ++ Text.quoted name
  | unclosedTable => "Unclosed inline table"
  | escape => "Unescaped '\\' in a string"
  | hexadecimal => "Invalid hex value"
  | codePoint => "Escaped character is not a Unicode scalar value"
  | unterminated => "Unterminated string"
  | illegal c => "Illegal character " ++ Text.quoted (String.singleton c)
  | misplaced c => "Found invalid character " ++ Text.quoted (String.singleton c)
  | noClosing quotes => "Expected " ++ Text.quoted quotes
  | date => "Invalid date or datetime"
  | value => "Invalid value"

/-- A problem, and how many characters are left where it is noticed. -/
structure Fault where
  problem : Problem
  left : Nat
  deriving DecidableEq, Repr

inductive Error where
  | fault (f : Fault)
  /-- An integer of too many digits. -/
  | longInteger (digits : Nat)
  deriving DecidableEq, Repr

/-- Something that has been read, and the characters behind it. -/
abbrev Reading (α : Type) := α × List Char

/-- Reading stops at these characters. -/
def refuse (problem : Problem) (left : List Char) : Except Error α := .error (.fault ⟨problem, left.length⟩)

/-- A place in a text: line and column, both counted from one. -/
def placeText (source : List Char) (left : Nat) : String :=
  if left = 0 then "end of document" else
    let before := source.take (source.length - left)
    let column := (before.reverse.takeWhile (· ≠ '\n')).length + 1
    "line " ++ toString (before.count '\n' + 1) ++ ", column " ++ toString column

def Fault.text (source : List Char) (f : Fault) : String :=
  f.problem.text ++ " (at " ++ placeText source f.left ++ ")"

example : (Fault.mk .value 1).text "a = 1\nb = ?".toList = "Invalid value (at line 2, column 5)" := by
  decide +kernel

end NoteVault.Toml
