import NoteVault.Base64
import NoteVault.Text.Case
import NoteVault.Value
import NoteVault.Yaml.Node

/-!
What scalars stand for: texts, truth values, numbers, points in time and octets.
-/
namespace NoteVault.Yaml

open Number

/-- The letters of a base that may stand behind a zero in front of its digits. -/
def dropBase (base : Nat) : List Char → List Char
  | '0' :: x :: rest =>
    let letters := if base = 2 then ['b', 'B'] else if base = 8 then ['o', 'O']
      else if base = 16 then ['x', 'X'] else []
    if letters.contains x then rest else '0' :: x :: rest
  | s => s

/-- An integer of a base, with a sign and the letters of the base. -/
def integer (base : Nat) (s : List Char) : Except ValueError Int :=
  let (negative, body) := signOf (plainForm s)
  let body := dropBase base body
  let run := body.takeWhile Char.isDigit
  if base = 10 && maxDigits < run.length then .error (.longInteger run.length)
  else match inBase? base body with
    | some n => .ok (if negative then -(n : Int) else n)
    | none => .error (.integer base (String.ofList s))

/-- The number whose digits in base sixty are given, the first one weighing most. -/
def sixtieths (digits : List Int) : Int := digits.foldl (fun n d => 60 * n + d) 0

/-- An integer without its sign. -/
def magnitude (s : List Char) : Except ValueError Int :=
  match s with
  | [] => .error .noNumber
  | ['0'] => .ok 0
  | '0' :: 'b' :: rest => integer 2 rest
  | '0' :: 'x' :: rest => integer 16 rest
  | '0' :: _ => integer 8 s
  | _ =>
    if s.contains ':' then ((Text.fields ':' s).mapM (integer 10)).map sixtieths
    else integer 10 s

/-- A sign, and what stands behind it. -/
def signed (s : List Char) : Except ValueError (Bool × List Char) :=
  match s with
  | [] => .error .noNumber
  | _ => .ok (signOf s)

def intValue (text : String) : Except ValueError Int := do
  let (negative, body) ← signed (text.toList.filter (· ≠ '_'))
  let n ← magnitude body
  return if negative then -n else n

def decimal (s : List Char) : Except ValueError Binary64 :=
  match readFloat? s with
  | some x => .ok x
  | none => .error (.float (String.ofList s))

/-- The sum of doubles with the powers of sixty as their weights, the first one weighing least. -/
def weighted : Int → Binary64 → List Binary64 → Except ValueError Binary64
  | _, sum, [] => .ok sum
  | weight, sum, x :: rest =>
    match Binary64.ofInt? weight with
    | none => .error .overflow
    | some w => weighted (60 * weight) (sum.add (x.mul w)) rest

/-- A double without its sign. -/
def floatMagnitude (s : List Char) : Except ValueError Binary64 :=
  if s = ".inf".toList then .ok (.infinite false)
  else if s = ".nan".toList then .ok .nan
  else if s.contains ':' then do
    let parts ← (Text.fields ':' s).mapM decimal
    weighted 1 .zero parts.reverse
  else decimal s

def floatValue (text : String) : Except ValueError Binary64 := do
  let (negative, body) ← signed (Text.lower (String.ofList (text.toList.filter (· ≠ '_')))).toList
  let x ← floatMagnitude body
  return if negative then x.neg else x

/-- The words for truth values, in lower case. -/
def truthWords : List (String × Bool) :=
  [("yes", true), ("no", false), ("true", true), ("false", false), ("on", true), ("off", false)]

def boolValue (text : String) : Except ValueError Bool :=
  match truthWords.lookup (Text.lower text) with
  | some b => .ok b
  | none => .error (.truth text)

def timestampValue (text : String) : Except ValueError Value :=
  match Timestamp.ofText? (Plain.dropFinalBreak text.toList) with
  | none => .error (.timestamp text)
  | some t =>
    match t.value with
    | .ok (.inl d) => .ok (.date d)
    | .ok (.inr t) => .ok (.datetime t)
    | .error e => .error (.calendar e)

/-- The first run of characters outside ASCII: its position and its characters. -/
def beyondAscii (s : List Char) : Nat × List Char :=
  let before := s.takeWhile (·.toNat < 128)
  (before.length, (s.drop before.length).takeWhile fun c => 128 ≤ c.toNat)

/-- A character by its code. -/
def codeEscape (c : Char) : String :=
  let n := c.toNat
  String.ofList (if n < 0x100 then '\\' :: 'x' :: Text.hex 2 n
    else if n < 0x10000 then '\\' :: 'u' :: Text.hex 4 n else '\\' :: 'U' :: Text.hex 8 n)

def notAsciiText (position : Nat) (run : List Char) : String :=
  let place := match run with
    | [c] => "character '" ++ codeEscape c ++ "' in position " ++ toString position
    | _ => "characters in position " ++ toString position ++ "-" ++ toString (position + run.length - 1)
  "'ascii' codec can't encode " ++ place ++ ": ordinal not in range(128)"

def binaryValue (text : String) : Except Problem (List UInt8) :=
  match beyondAscii text.toList with
  | (_, []) =>
    match Base64.decode text.toList with
    | .ok octets => .ok octets
    | .error e => .error (.base64 e.text)
  | (position, run) => .error (.base64NotAscii (notAsciiText position run))

namespace Node

def refuse {α : Type} (n : Node) (problem : Problem) : Except Error α :=
  .error (.fault ⟨none, problem, n.head.mark⟩)

mutual

/-- The text of a scalar, or of the value under the key `=` of a mapping. -/
def scalarText : Node → Except Error String
  | scalar _ text => .ok text
  | sequence head items => refuse (sequence head items) (.notScalar .sequence)
  | mapping head entries =>
    match valueText entries with
    | some r => r
    | none => refuse (mapping head entries) (.notScalar .mapping)

def valueText : List (Node × Node) → Option (Except Error String)
  | [] => none
  | (key, value) :: rest => if key.head.tag = .value then some (scalarText value) else valueText rest

end

def liftValue {α : Type} : Except ValueError α → Except Error α
  | .ok x => .ok x
  | .error e => .error (.value e)

/-- A timestamp has to be written as a scalar. -/
def isScalar : Node → Bool
  | scalar .. => true
  | _ => false

/-- The value of a node with a tag for scalars. -/
def scalarValue (n : Node) : Except Error Value := do
  match n.head.tag with
  | .null => let _ ← n.scalarText; return .null
  | .bool => return .bool (← liftValue (boolValue (← n.scalarText)))
  | .int => return .int (← liftValue (intValue (← n.scalarText)))
  | .float => return .float (← liftValue (floatValue (← n.scalarText)))
  | .timestamp =>
    let text ← n.scalarText
    if n.isScalar then liftValue (timestampValue text) else .error (.value .timestampNode)
  | .binary =>
    match binaryValue (← n.scalarText) with
    | .ok octets => return .bytes octets
    | .error problem => n.refuse problem
  | .str => return .str (← n.scalarText)
  | tag => n.refuse (.unknownTag tag.text)

end Node

end NoteVault.Yaml
