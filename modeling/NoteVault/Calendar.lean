
/-!
Dates of the Gregorian calendar from year 1 to year 9999, and times of day on them. Values out of range
are refused with the first fault in reading order.
-/
namespace NoteVault

/-- What is wrong with the numbers of a date or a time. -/
inductive CalendarError where
  | yearOutOfRange (year : Nat)
  | monthOutOfRange
  | dayOutOfRange
  | hourOutOfRange
  | minuteOutOfRange
  | secondOutOfRange
  /-- A time zone a day or more away, in minutes. -/
  | offsetOutOfRange (minutes : Int)
  deriving DecidableEq, Repr

namespace Calendar

/-- A length of time as whole days and the seconds that remain. -/
def durationDisplay (seconds : Int) : String :=
  let days := Int.fdiv seconds 86400
  let rest := Int.fmod seconds 86400
  let parts := (if days = 0 then [] else ["days=" ++ toString days]) ++
    (if rest = 0 then [] else ["seconds=" ++ toString rest])
  "datetime.timedelta(" ++ ", ".intercalate parts ++ ")"

end Calendar

def CalendarError.text : CalendarError → String
  | yearOutOfRange year => "year " ++ toString year ++ " is out of range"
  | monthOutOfRange => "month must be in 1..12"
  | dayOutOfRange => "day is out of range for month"
  | hourOutOfRange => "hour must be in 0..23"
  | minuteOutOfRange => "minute must be in 0..59"
  | secondOutOfRange => "second must be in 0..59"
  | offsetOutOfRange minutes =>
    "offset must be a timedelta strictly between -timedelta(hours=24) and timedelta(hours=24), not " ++
      Calendar.durationDisplay (60 * minutes) ++ "."

namespace Calendar

def isLeapYear (year : Nat) : Bool := year % 4 = 0 && (year % 100 ≠ 0 || year % 400 = 0)

def daysInMonth (year month : Nat) : Nat :=
  if month = 2 then if isLeapYear year then 29 else 28
  else if month = 4 ∨ month = 6 ∨ month = 9 ∨ month = 11 then 30 else 31

/-- Decimal digits of a number, with zeros in front up to a width. -/
def padded (width n : Nat) : String :=
  let ds := Nat.toDigits 10 n
  String.ofList (List.replicate (width - ds.length) '0' ++ ds)

end Calendar

open Calendar

/-- A day of the calendar. -/
structure Date where
  year : Nat
  month : Nat
  day : Nat
  year_range : 1 ≤ year ∧ year ≤ 9999
  month_range : 1 ≤ month ∧ month ≤ 12
  day_range : 1 ≤ day ∧ day ≤ daysInMonth year month
  deriving DecidableEq

namespace Date

/-- The day with these numbers. -/
def make (year month day : Nat) : Except CalendarError Date :=
  if hy : 1 ≤ year ∧ year ≤ 9999 then
    if hm : 1 ≤ month ∧ month ≤ 12 then
      if hd : 1 ≤ day ∧ day ≤ daysInMonth year month then .ok ⟨year, month, day, hy, hm, hd⟩
      else .error .dayOutOfRange
    else .error .monthOutOfRange
  else .error (.yearOutOfRange year)

/-- Four digits, two digits, two digits. -/
def text (d : Date) : String :=
  padded 4 d.year ++ "-" ++ padded 2 d.month ++ "-" ++ padded 2 d.day

/-- The number of days from the first day of year 1, which has number 1. -/
def ordinal (d : Date) : Nat :=
  let y := d.year - 1
  let past := (List.range (d.month - 1)).foldl (fun n m => n + daysInMonth d.year (m + 1)) 0
  365 * y + y / 4 - y / 100 + y / 400 + past + d.day

/-- The number that a run of ASCII digits stands for. -/
def number? (cs : List Char) : Option Nat :=
  if !cs.isEmpty && cs.all Char.isDigit then
    some (cs.foldl (fun n c => 10 * n + (c.toNat - 48)) 0)
  else none

/-- Reads `YYYY-MM-DD` and nothing else. -/
def ofText? (s : List Char) : Option Date :=
  match s with
  | [y1, y2, y3, y4, '-', m1, m2, '-', d1, d2] => do
    let year ← number? [y1, y2, y3, y4]
    let month ← number? [m1, m2]
    let day ← number? [d1, d2]
    (make year month day).toOption
  | _ => none

example : ((ofText? "2024-02-29".toList).map text) = some "2024-02-29" := by decide +kernel

example : ofText? "2023-02-29".toList = none ∧ ofText? "2024-2-9".toList = none := by decide +kernel

end Date

/-- A time of a day, with the distance of its clock from universal time in seconds when that is known. -/
structure DateTime where
  date : Date
  hour : Nat
  minute : Nat
  second : Nat
  microsecond : Nat
  offset : Option Int
  deriving DecidableEq

namespace DateTime

def make (year month day hour minute second microsecond : Nat) (offset : Option Int) :
    Except CalendarError DateTime := do
  let date ← Date.make year month day
  if 23 < hour then throw .hourOutOfRange
  if 59 < minute then throw .minuteOutOfRange
  if 59 < second then throw .secondOutOfRange
  return ⟨date, hour, minute, second, microsecond, offset⟩

/-- A clock's distance from universal time, less than a day either way. -/
def offsetOfMinutes (minutes : Int) : Except CalendarError Int :=
  if minutes.natAbs < 1440 then .ok (60 * minutes) else .error (.offsetOutOfRange minutes)

/-- Sign, hours and minutes of a clock's distance, and its seconds if there are any. -/
def offsetText (seconds : Int) : String :=
  let n := seconds.natAbs
  (if seconds < 0 then "-" else "+") ++ padded 2 (n / 3600) ++ ":" ++ padded 2 (n / 60 % 60) ++
    (if n % 60 = 0 then "" else ":" ++ padded 2 (n % 60))

/-- The date, a separator, the time, the microseconds if there are any, and the clock's distance. -/
def text (separator : String) (t : DateTime) : String :=
  t.date.text ++ separator ++ padded 2 t.hour ++ ":" ++ padded 2 t.minute ++ ":" ++ padded 2 t.second ++
    (if t.microsecond = 0 then "" else "." ++ padded 6 t.microsecond) ++
    (t.offset.map offsetText).getD ""

/-- Microseconds from the beginning of the calendar, by the clock of the place. -/
def localMicroseconds (t : DateTime) : Int :=
  (((t.date.ordinal * 24 + t.hour) * 60 + t.minute) * 60 + t.second : Int) * 1000000 + t.microsecond

/-- One point in time; a clock with a known distance and one without are never compared. -/
def same (a b : DateTime) : Bool :=
  match a.offset, b.offset with
  | none, none => a.localMicroseconds = b.localMicroseconds
  | some x, some y => a.localMicroseconds - x * 1000000 = b.localMicroseconds - y * 1000000
  | _, _ => false

/-- The first six digits of a fraction of a second. -/
def microsecondsOf (digits : List Char) : Nat :=
  let ds := digits.take 6
  (Date.number? (ds ++ List.replicate (6 - ds.length) '0')).getD 0

/-- A clock's distance in the form that `offsetText` writes, or the letter for none. -/
def offset? : List Char → Option (Option Int)
  | [] => some none
  | ['Z'] => some (some 0)
  | sign :: h1 :: h2 :: ':' :: m1 :: m2 :: rest => do
    let hours ← Date.number? [h1, h2]
    let minutes ← Date.number? [m1, m2]
    let seconds ← match rest with
      | [] => some 0
      | [':', s1, s2] => Date.number? [s1, s2]
      | _ => none
    let n : Int := hours * 3600 + minutes * 60 + seconds
    if sign = '+' then some (some n) else if sign = '-' then some (some (-n)) else none
  | _ => none

/-- Reads a date, one character, hours, minutes and seconds, a fraction and a clock's distance. -/
def ofText? (s : List Char) : Option DateTime := do
  let date ← Date.ofText? (s.take 10)
  match s.drop 10 with
  | _ :: h1 :: h2 :: ':' :: m1 :: m2 :: ':' :: s1 :: s2 :: rest =>
    let hour ← Date.number? [h1, h2]
    let minute ← Date.number? [m1, m2]
    let second ← Date.number? [s1, s2]
    let (fraction, rest) := match rest with
      | '.' :: more => (more.takeWhile Char.isDigit, more.dropWhile Char.isDigit)
      | more => ([], more)
    let offset ← offset? rest
    (make date.year date.month date.day hour minute second (microsecondsOf fraction) offset).toOption
  | [] => some ⟨date, 0, 0, 0, 0, none⟩
  | _ => none

example : ((ofText? "2024-01-15T10:30:00.5-02:00".toList).map (text " ")) =
    some "2024-01-15 10:30:00.500000-02:00" := by decide +kernel

end DateTime

end NoteVault
