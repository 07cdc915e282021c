import NoteVault.Text.Fields
import NoteVault.Yaml.Timestamp

/-!
Tags of nodes, and the tag that a plain scalar gets from its text.
-/
namespace NoteVault.Yaml

inductive Tag where
  | null | bool | int | float | timestamp | merge | value | reserved
  | str | seq | map | binary | omap | pairs | set
  | other (text : String)
  deriving DecidableEq, Repr

namespace Tag

/-- What the tags of the standard types begin with. -/
def standard : String := "tag:yaml.org,2002:"

/-- The names of the standard types. -/
def names : List (String × Tag) :=
  [("null", null), ("bool", bool), ("int", int), ("float", float), ("timestamp", timestamp),
   ("merge", merge), ("value", value), ("yaml", reserved), ("str", str), ("seq", seq), ("map", map),
   ("binary", binary), ("omap", omap), ("pairs", pairs), ("set", set)]

def ofText (text : String) : Tag :=
  ((names.map fun (name, tag) => (standard ++ name, tag)).lookup text).getD (other text)

def text : Tag → String
  | other text => text
  | tag => standard ++ ((names.find? (·.2 = tag)).map (·.1)).getD ""

end Tag

namespace Plain

def isDigitOrJoin (c : Char) : Bool := c.isDigit || c = '_'

def dropSign : List Char → List Char
  | '+' :: rest => rest
  | '-' :: rest => rest
  | s => s

/-- A digit, then digits and underscores. -/
def isDigits : List Char → Bool
  | c :: rest => c.isDigit && rest.all isDigitOrJoin
  | [] => false

/-- As `isDigits`, and not beginning with zero. -/
def isCount (s : List Char) : Bool := isDigits s && s.head? ≠ some '0'

/-- A number below sixty, of one or two digits. -/
def isSixtieth : List Char → Bool
  | [a] => a.isDigit
  | [a, b] => '0' ≤ a && a ≤ '5' && b.isDigit
  | _ => false

/-- One or more fields of a number in base sixty behind the first one. -/
def areSixtieths (fs : List (List Char)) : Bool := !fs.isEmpty && fs.all isSixtieth

/-- One or more characters of a class. -/
def isRun (p : Char → Bool) (s : List Char) : Bool := !s.isEmpty && s.all p

def isBit (c : Char) : Bool := c = '0' || c = '1' || c = '_'

def isOctal (c : Char) : Bool := ('0' ≤ c && c ≤ '7') || c = '_'

def isHex (c : Char) : Bool :=
  c.isDigit || ('a' ≤ c && c ≤ 'f') || ('A' ≤ c && c ≤ 'F') || c = '_'

/-- Integers in base two, eight, ten, sixteen and sixty. -/
def isInt (s : List Char) : Bool :=
  let body := dropSign s
  (match body with
    | '0' :: 'b' :: rest => isRun isBit rest
    | '0' :: 'x' :: rest => isRun isHex rest
    | ['0'] => true
    | '0' :: rest => isRun isOctal rest
    | _ => false) ||
  isCount body ||
  (match Text.fields ':' body with
    | first :: more => isCount first && areSixtieths more
    | [] => false)

/-- Nothing, or an exponent with a sign. -/
def isExponent : List Char → Bool
  | [] => true
  | e :: sign :: ds => (e = 'e' || e = 'E') && (sign = '+' || sign = '-') && isRun Char.isDigit ds
  | _ => false

/-- Digits behind a point, with an exponent. -/
def isFraction (s : List Char) : Bool := isExponent (s.dropWhile isDigitOrJoin)

/-- Doubles: with a point in base ten, with a point in base sixty, infinities and not-a-number. -/
def isFloat (s : List Char) : Bool :=
  let body := dropSign s
  let (whole, rest) := (body.takeWhile (· ≠ '.'), body.dropWhile (· ≠ '.'))
  match rest with
  | '.' :: part =>
    (isDigits whole && isFraction part) ||
    (s.head? = some '.' && part.head?.any Char.isDigit && isFraction part) ||
    ((match Text.fields ':' whole with
      | first :: more => isDigits first && areSixtieths more
      | [] => false) && part.all isDigitOrJoin) ||
    (whole.isEmpty && ["inf".toList, "Inf".toList, "INF".toList].contains part) ||
    (s.head? = some '.' && ["nan".toList, "NaN".toList, "NAN".toList].contains part)
  | _ => false

def isBool (s : List Char) : Bool :=
  ["yes", "Yes", "YES", "no", "No", "NO", "true", "True", "TRUE", "false", "False", "FALSE",
   "on", "On", "ON", "off", "Off", "OFF"].any (·.toList = s)

def isNull (s : List Char) : Bool := ["", "~", "null", "Null", "NULL"].any (·.toList = s)

def isTimestamp (s : List Char) : Bool :=
  (Timestamp.ofText? s).any fun t => t.full || t.clock.isSome

/-- A text without one line feed at its end. -/
def dropFinalBreak (s : List Char) : List Char :=
  if s.getLast? = some '\n' then s.dropLast else s

end Plain

open Plain in
/-- The tag of a plain scalar. A line feed at the end does not count, unless nothing else is there. -/
def Tag.ofPlain (text : String) : Tag :=
  let s := dropFinalBreak text.toList
  if s.isEmpty && !text.isEmpty then .str
  else if isBool s then .bool
  else if isFloat s then .float
  else if isInt s then .int
  else if s = ['<', '<'] then .merge
  else if isNull s then .null
  else if isTimestamp s then .timestamp
  else if s = ['='] then .value
  else if s = ['!'] ∨ s = ['&'] ∨ s = ['*'] then .reserved
  else .str

example : Tag.ofPlain "0x1F" = .int ∧ Tag.ofPlain "1e3" = .str ∧ Tag.ofPlain "1.0e+3" = .float := by
  decide +kernel

example : Tag.ofPlain "1:30" = .int ∧ Tag.ofPlain "08" = .str ∧ Tag.ofPlain "2024-1-1" = .str := by
  decide +kernel

end NoteVault.Yaml
