import NoteVault.Calendar
import NoteVault.Number.Reading

/-!
Timestamps of YAML: a date, and behind it a time of day with a fraction and a time zone.
-/
namespace NoteVault.Yaml

open Number

/-- A time of day as written; the zone is given in minutes. -/
structure ClockText where
  hour : Nat
  minute : Nat
  second : Nat
  fraction : List Char
  zone : Option Int
  deriving DecidableEq

/-- The numbers of a timestamp. A date alone is `full` when month and day have two digits each. -/
structure Timestamp where
  year : Nat
  month : Nat
  day : Nat
  full : Bool
  clock : Option ClockText
  deriving DecidableEq

namespace Timestamp

/-- One or two digits, and what follows them. -/
def shortNumber : List Char → Option (List Char × List Char)
  | a :: b :: rest =>
    if !a.isDigit then none else if b.isDigit then some ([a, b], rest) else some ([a], b :: rest)
  | [a] => if a.isDigit then some ([a], []) else none
  | [] => none

/-- Two digits behind a colon. -/
def colonNumber : List Char → Option (Nat × List Char)
  | ':' :: a :: b :: rest => if a.isDigit && b.isDigit then some (decimalValue [a, b], rest) else none
  | _ => none

def isGap (c : Char) : Bool := c = ' ' || c = '\t'

/-- A time zone in minutes: the letter of universal time, or hours and minutes with a sign. -/
def readZone (s : List Char) : Option Int :=
  match s with
  | ['Z'] => some 0
  | sign :: rest => do
    if sign ≠ '+' ∧ sign ≠ '-' then failure
    let (hours, rest) ← shortNumber rest
    let minutes ← match rest with
      | [] => some 0
      | rest => match colonNumber rest with
        | some (m, []) => some m
        | _ => none
    let n : Int := 60 * decimalValue hours + minutes
    some (if sign = '-' then -n else n)
  | [] => none

/-- The digits behind a point, and what follows them. -/
def readFraction : List Char → List Char × List Char
  | '.' :: rest => (rest.takeWhile Char.isDigit, rest.dropWhile Char.isDigit)
  | s => ([], s)

/-- A time zone behind blanks, or nothing. -/
def zonePart : List Char → Option (Option Int)
  | [] => some none
  | s => (readZone (s.dropWhile isGap)).map some

/-- A time of day: hours, minutes, seconds, a fraction and a zone. -/
def readClock (s : List Char) : Option ClockText := do
  let (hour, rest) ← shortNumber s
  let (minute, rest) ← colonNumber rest
  let (second, rest) ← colonNumber rest
  let (fraction, rest) := readFraction rest
  let zone ← zonePart rest
  some ⟨decimalValue hour, minute, second, fraction, zone⟩

/-- A time of day behind a letter or behind blanks. -/
def gapClock : List Char → Option (Option ClockText)
  | [] => some none
  | c :: rest =>
    if c = 'T' ∨ c = 't' then (readClock rest).map some
    else if isGap c then (readClock (rest.dropWhile isGap)).map some
    else none

/-- Reads a timestamp. -/
def ofText? (s : List Char) : Option Timestamp :=
  match s with
  | y1 :: y2 :: y3 :: y4 :: '-' :: rest => do
    if ([y1, y2, y3, y4].all Char.isDigit) = false then failure
    let (month, rest) ← shortNumber rest
    match rest with
    | '-' :: rest =>
      let (day, rest) ← shortNumber rest
      let clock ← gapClock rest
      some ⟨decimalValue [y1, y2, y3, y4], decimalValue month, decimalValue day,
        month.length = 2 && day.length = 2, clock⟩
    | _ => none
  | _ => none

/-- The date or the point in time, or the first number that is out of range. -/
def value (t : Timestamp) : Except CalendarError (Date ⊕ DateTime) :=
  match t.clock with
  | none => (Date.make t.year t.month t.day).map .inl
  | some c => do
    let offset ← match c.zone with
      | none => pure none
      | some minutes => (DateTime.offsetOfMinutes minutes).map some
    let time ← DateTime.make t.year t.month t.day c.hour c.minute c.second
      (DateTime.microsecondsOf c.fraction) offset
    pure (.inr time)

end Timestamp

end NoteVault.Yaml
