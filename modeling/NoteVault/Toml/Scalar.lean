import NoteVault.Number.Reading
import NoteVault.Toml.Text

/-!
Numbers, dates and times of a settings file.
-/
namespace NoteVault.Toml

/-- Digits, of which any but the first may have an underscore in front; the underscores are dropped. -/
def digitRun (isDigit : Char → Bool) : List Char → List Char × List Char
  | [] => ([], [])
  | '_' :: c :: rest =>
    if isDigit c then
      let (ds, after) := digitRun isDigit rest
      (c :: ds, after)
    else ([], '_' :: c :: rest)
  | c :: rest =>
    if isDigit c then
      let (ds, after) := digitRun isDigit rest
      (c :: ds, after)
    else ([], c :: rest)

/-- Digits of which the first has no underscore in front. -/
def digits? (isDigit : Char → Bool) (s : List Char) : Option (List Char × List Char) :=
  match s with
  | c :: _ => if isDigit c then some (digitRun isDigit s) else none
  | [] => none

def isDigitOf (base : Nat) (c : Char) : Bool := ((Number.digitOf? c).getD base) < base

/-- The base that a letter behind a zero announces. -/
def baseLetters : List (Char × Nat) := [('x', 16), ('b', 2), ('o', 8)]

/-- An integer in another base than ten. -/
def basedInteger? (s : List Char) : Option (Value × List Char) :=
  match s with
  | '0' :: letter :: rest => do
    let base ← baseLetters.lookup letter
    let (ds, after) ← digits? (isDigitOf base) rest
    return (.int (Number.ofDigits base (ds.filterMap Number.digitOf?)), after)
  | _ => none

/-- Behind an integer: a point and digits. -/
def fraction (s : List Char) : List Char × List Char :=
  match s with
  | '.' :: rest =>
    match digits? Char.isDigit rest with
    | some (ds, after) => ('.' :: ds, after)
    | none => ([], s)
  | _ => ([], s)

/-- Behind an integer or a fraction: the letter `e`, a sign and digits. -/
def exponent (s : List Char) : List Char × List Char :=
  match s with
  | c :: rest =>
    if c = 'e' || c = 'E' then
      let sign := (rest.take 1).filter fun c => c = '+' || c = '-'
      match digits? Char.isDigit (rest.drop sign.length) with
      | some (ds, after) => ('e' :: sign ++ ds, after)
      | none => ([], s)
    else ([], s)
  | [] => ([], s)

/-- The digits of an integer in base ten; a zero stands alone. -/
def wholeDigits? (s : List Char) : Option (List Char × List Char) :=
  match s with
  | '0' :: rest => some (['0'], rest)
  | s => digits? Char.isDigit s

/-- An integer in base ten, or a double. -/
def decimal? (s : List Char) : Option (Except Error (Reading Value)) := do
  let sign := (s.take 1).filter fun c => c = '+' || c = '-'
  let (whole, rest) ← wholeDigits? (s.drop sign.length)
  let (part, rest) := fraction rest
  let (power, rest) := exponent rest
  if part.isEmpty && power.isEmpty then
    if Number.maxDigits < whole.length then some (.error (.longInteger whole.length)) else
      let n : Int := Number.decimalValue whole
      some (.ok (.int (if sign = ['-'] then -n else n), rest))
  else
    some (.ok (.float ((Number.readFloat? (sign ++ whole ++ part ++ power)).getD .nan), rest))

/-- A number. -/
def number? (s : List Char) : Option (Except Error (Reading Value)) :=
  match basedInteger? s with
  | some r => some (.ok r)
  | none => decimal? s

/-- An infinity or no number at all. -/
def specialFloat? (s : List Char) : Option (Value × List Char) :=
  let sign := (s.take 1).filter fun c => c = '+' || c = '-'
  let rest := s.drop sign.length
  if rest.take 3 = ['i', 'n', 'f'] then some (.float (.infinite (sign = ['-'])), rest.drop 3)
  else if rest.take 3 = ['n', 'a', 'n'] then some (.float .nan, rest.drop 3)
  else none

/-- A number of ASCII digits of fixed width within bounds. -/
def fixed? (width low high : Nat) (s : List Char) : Option (Nat × List Char) := do
  if (s.take width).length < width then failure
  let n ← Date.number? (s.take width)
  if low ≤ n ∧ n ≤ high then some (n, s.drop width) else none

def expect? (c : Char) : List Char → Option (List Char)
  | d :: rest => if c = d then some rest else none
  | [] => none

/-- Hour, minute, second and microsecond. -/
structure Clock where
  hour : Nat
  minute : Nat
  second : Nat
  microsecond : Nat

/-- A time of day, with a fraction of a second behind a point. -/
def clock? (s : List Char) : Option (Clock × List Char) := do
  let (hour, s) ← fixed? 2 0 23 s
  let (minute, s) ← fixed? 2 0 59 (← expect? ':' s)
  let (second, s) ← fixed? 2 0 59 (← expect? ':' s)
  match s with
  | '.' :: rest =>
    let ds := rest.takeWhile Char.isDigit
    if ds.isEmpty then some (⟨hour, minute, second, 0⟩, s)
    else some (⟨hour, minute, second, DateTime.microsecondsOf ds⟩, rest.drop ds.length)
  | _ => some (⟨hour, minute, second, 0⟩, s)

/-- A clock's distance from universal time in seconds. -/
def offset? (s : List Char) : Option (Int × List Char) :=
  match s with
  | [] => none
  | c :: rest =>
    if c = 'Z' || c = 'z' then some (0, rest)
    else if c = '+' || c = '-' then do
      let (hours, rest) ← fixed? 2 0 23 rest
      let (minutes, rest) ← fixed? 2 0 59 (← expect? ':' rest)
      let n : Int := 3600 * hours + 60 * minutes
      some (if c = '-' then -n else n, rest)
    else none

/-- Behind a date: the time of day. -/
def clockBehind? (s : List Char) : Option (Clock × List Char) :=
  match s with
  | c :: rest => if c = 'T' || c = 't' || c = ' ' then clock? rest else none
  | [] => none

/-- A date, with or without a time of day, with or without a clock's distance. -/
def dated? (s : List Char) : Option (Except Error (Reading Value)) := do
  let (year, rest) ← fixed? 4 0 9999 s
  let (month, rest) ← fixed? 2 1 12 (← expect? '-' rest)
  let (day, rest) ← fixed? 2 1 31 (← expect? '-' rest)
  match clockBehind? rest with
  | none =>
    match Date.make year month day with
    | .ok d => some (.ok (.date d, rest))
    | .error _ => some (refuse .date s)
  | some (clock, rest) =>
    let (zone, rest) := match offset? rest with
      | some (seconds, rest) => (some seconds, rest)
      | none => (none, rest)
    match DateTime.make year month day clock.hour clock.minute clock.second clock.microsecond zone with
    | .ok t => some (.ok (.datetime t, rest))
    | .error _ => some (refuse .date s)

/-- A time of day without a date. Values have no counterpart of it, so it is read as null. -/
def timeOfDay? (s : List Char) : Option (Value × List Char) := (clock? s).map fun (_, rest) => (.null, rest)

/-- A number, a date, or a time. -/
def scalar (s : List Char) : Except Error (Reading Value) :=
  match dated? s with
  | some r => r
  | none =>
    match timeOfDay? s with
    | some r => .ok r
    | none =>
      match number? s with
      | some r => r
      | none =>
        match specialFloat? s with
        | some r => .ok r
        | none => refuse .value s

example : (scalar "1_000,".toList).toOption = some (.int 1000, [',']) := by decide +kernel

example : (scalar "0xF_f".toList).toOption = some (.int 255, []) := by decide +kernel

end NoteVault.Toml
