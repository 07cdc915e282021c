import NoteVault.Value.Display

/-!
Values as JSON text in ASCII. What JSON has no form for is written as the string of its plain text.
-/
namespace NoteVault.Json

/-- A 16-bit unit by its code. -/
def unit (n : Nat) : List Char := '\\' :: 'u' :: Text.hex 4 n

/-- A character of a JSON string; above U+FFFF as a surrogate pair. -/
def escaped (c : Char) : List Char :=
  let n := c.toNat
  if c = '"' then ['\\', '"']
  else if c = '\\' then ['\\', '\\']
  else if c = '\n' then ['\\', 'n']
  else if c = '\r' then ['\\', 'r']
  else if c = '\t' then ['\\', 't']
  else if n = 8 then ['\\', 'b']
  else if n = 12 then ['\\', 'f']
  else if 32 ≤ n && n < 127 then [c]
  else if n < 0x10000 then unit n
  else unit (0xD800 + (n - 0x10000) / 0x400) ++ unit (0xDC00 + (n - 0x10000) % 0x400)

def text (s : String) : String := String.ofList ('"' :: s.toList.flatMap escaped ++ ['"'])

/-- Numbers that JSON lacks are written as words. -/
def number (x : Binary64) : String := { Binary64.plainLayout with infinityText := "Infinity", nanText := "NaN" }.write x

end NoteVault.Json

namespace NoteVault.Value

mutual

/-- The value as JSON, with a blank after commas and colons. -/
def toJson : Value → String
  | null => "null"
  | bool b => if b then "true" else "false"
  | int n => toString n
  | float x => Json.number x
  | str s => Json.text s
  | list items => "[" ++ ", ".intercalate (toJsonList items) ++ "]"
  | tuple items => "[" ++ ", ".intercalate (toJsonList items) ++ "]"
  | map entries => "\x7b" ++ ", ".intercalate (toJsonEntries entries) ++ "\x7d"
  | shared _ v => toJson v
  | v => Json.text v.plain

def toJsonList : List Value → List String
  | [] => []
  | v :: rest => toJson v :: toJsonList rest

def toJsonEntries : List (String × Value) → List String
  | [] => []
  | (k, v) :: rest => (Json.text k ++ ": " ++ toJson v) :: toJsonEntries rest

end

example : (map [("é", list [null, float .nan])]).toJson = "\x7b\"\\u00e9\": [null, NaN]\x7d" := by
  decide +kernel

end NoteVault.Value
