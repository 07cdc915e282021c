import NoteVault.Number.Binary64
import NoteVault.Text.Blank
import NoteVault.Text.Digit

/-!
Texts of numbers. Digits of all scripts are read, a single underscore may stand between two digits, and
white space around the number is passed over.
-/
namespace NoteVault.Number

open NoteVault.Text

/-- White space off, digits of all scripts turned into ASCII digits. -/
def plainForm (s : List Char) : List Char :=
  (trimBy isBlank s).map fun c =>
    match digitValue? c with
    | some d => Nat.digitChar d
    | none => c

/-- Removes underscores that stand between two digits; any other underscore is a fault. -/
def joinDigits (isDigit : Char → Bool) (afterDigit : Bool) : List Char → Option (List Char)
  | [] => some []
  | '_' :: c :: rest =>
    if afterDigit && isDigit c then (joinDigits isDigit true rest).map (c :: ·) else none
  | '_' :: [] => none
  | c :: rest => (joinDigits isDigit (isDigit c) rest).map (c :: ·)

/-- An optional sign. -/
def signOf : List Char → Bool × List Char
  | '-' :: rest => (true, rest)
  | '+' :: rest => (false, rest)
  | s => (false, s)

/-- The number that digits of a base stand for. -/
def ofDigits (base : Nat) (ds : List Nat) : Nat := ds.foldl (fun n d => n * base + d) 0

def decimalValue (ds : List Char) : Nat := ofDigits 10 (ds.map fun c => c.toNat - 48)

/-- The value of a digit in bases up to thirty-six. -/
def digitOf? (c : Char) : Option Nat :=
  if c.isDigit then some (c.toNat - 48)
  else if c.isLower then some (c.toNat - 87)
  else if c.isUpper then some (c.toNat - 55)
  else none

/-- The digits of a number in a base, if there is one and all belong to the base. -/
def inBase? (base : Nat) (s : List Char) : Option Nat := do
  if s.isEmpty then failure
  let ds ← s.mapM digitOf?
  if ds.all (· < base) then some (ofDigits base ds) else none

/-- An integer in a base, with a sign. -/
def readInt? (base : Nat) (s : List Char) : Option Int := do
  let isDigit := fun c => ((digitOf? c).getD base) < base
  let (negative, body) := signOf (plainForm s)
  let ds ← joinDigits isDigit false body
  let n ← inBase? base ds
  some (if negative then -(n : Int) else n)

/-- A decimal exponent, with a sign. -/
def exponentOf? : List Char → Option Int
  | [] => some 0
  | c :: rest =>
    if c = 'e' ∨ c = 'E' then do
      let (negative, ds) := signOf rest
      if ds.isEmpty || !ds.all Char.isDigit then failure
      some (if negative then -(decimalValue ds : Int) else decimalValue ds)
    else none

/-- A decimal without a sign: digits, a point, digits, an exponent. -/
def readDecimal? (negative : Bool) (s : List Char) : Option Binary64 := do
  let whole := s.takeWhile Char.isDigit
  let rest := s.dropWhile Char.isDigit
  let (part, rest) := match rest with
    | '.' :: more => (more.takeWhile Char.isDigit, more.dropWhile Char.isDigit)
    | more => ([], more)
  if whole.isEmpty && part.isEmpty then failure
  let e ← exponentOf? rest
  some (Binary64.ofDecimal negative (decimalValue (whole ++ part)) (e - part.length))

/-- A double: a decimal, an infinity or `nan`, with a sign. -/
def readFloat? (s : List Char) : Option Binary64 := do
  let body ← joinDigits Char.isDigit false (plainForm s)
  let (negative, body) := signOf body
  let word := body.map Char.toLower
  if word = "inf".toList ∨ word = "infinity".toList then some (.infinite negative)
  else if word = "nan".toList then some .nan
  else readDecimal? negative body

example : readInt? 10 " +1_000 ".toList = some 1000 ∧ readInt? 16 "-fF".toList = some (-255) := by
  decide +kernel

example : readInt? 10 "1__0".toList = none ∧ readInt? 10 "".toList = none := by decide +kernel

example : readFloat? "1_0.5e-1".toList = readFloat? "1.05".toList := by decide +kernel

end NoteVault.Number
