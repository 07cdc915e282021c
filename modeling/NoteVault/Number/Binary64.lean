/-!
Double-precision numbers as data: a sign, a mantissa and a binary exponent. Every operation is a
rounding of an exact ratio, so results do not depend on the machine.
-/
namespace NoteVault

/-- A double-precision number; `finite` stands for `± mantissa * 2 ^ exponent`. -/
inductive Binary64 where
  | nan
  | infinite (negative : Bool)
  | finite (negative : Bool) (mantissa : Nat) (exponent : Int)
  deriving DecidableEq, Repr, Inhabited

namespace Binary64

/-- The least exponent, that of the subnormal numbers. -/
def minExponent : Int := -1074

/-- The greatest exponent of a finite number. -/
def maxExponent : Int := 971

/-- The highest bit of a mantissa of 53 bits. -/
def leadingBit : Nat := 0x10000000000000

/-- The nearest integer to a ratio, a half going to the even neighbour. -/
def roundHalfEven (num den : Nat) : Nat :=
  let q := num / den
  let twice := 2 * (num % den)
  if twice < den then q else if den < twice then q + 1 else q + q % 2

/-- The ratio `num / (den * 2 ^ e)` as a numerator and a denominator. -/
def scaled (num den : Nat) (e : Int) : Nat × Nat :=
  if 0 ≤ e then (num, den * Nat.pow 2 e.toNat) else (num * Nat.pow 2 (-e).toNat, den)

/-- The exponent at which the mantissa of a positive ratio has 53 bits, or the least one. -/
def exponentOf (num den : Nat) : Int :=
  let guess : Int := (num.log2 : Int) - den.log2 - 52
  let (n, d) := scaled num den guess
  max minExponent (if n < d * leadingBit then guess - 1 else guess)

/-- The nearest double to `num / den`, a half going to the even mantissa. -/
def ofRatio (negative : Bool) (num den : Nat) : Binary64 :=
  if num = 0 then finite negative 0 minExponent else
    let e := exponentOf num den
    let (n, d) := scaled num den e
    let m := roundHalfEven n d
    let (m, e) := if m = 2 * leadingBit then (leadingBit, e + 1) else (m, e)
    if maxExponent < e then infinite negative else finite negative m e

/-- The nearest double to `digits * 10 ^ exponent`. Exponents far out of range are answered before any
power of ten is formed. -/
def ofDecimal (negative : Bool) (digits : Nat) (exponent : Int) : Binary64 :=
  let magnitude : Int := exponent + (Nat.toDigits 10 digits).length
  if digits = 0 ∨ magnitude < -400 then finite negative 0 minExponent
  else if 400 < magnitude then infinite negative
  else if 0 ≤ exponent then ofRatio negative (digits * Nat.pow 10 exponent.toNat) 1
  else ofRatio negative digits (Nat.pow 10 (-exponent).toNat)

def zero : Binary64 := finite false 0 minExponent

/-- The opposite sign; there is one `nan`. -/
def neg : Binary64 → Binary64
  | nan => nan
  | infinite s => infinite !s
  | finite s m e => finite (!s) m e

/-- A finite number as a signed numerator over a power of two. -/
def signedMantissa (negative : Bool) (m : Nat) : Int := if negative then -(m : Int) else m

/-- A signed integer times a power of two, rounded. The sign of an exact zero is given. -/
def ofScaledInt (zeroNegative : Bool) (n : Int) (e : Int) : Binary64 :=
  if n = 0 then finite zeroNegative 0 minExponent
  else if 0 ≤ e then ofRatio (n < 0) (n.natAbs * Nat.pow 2 e.toNat) 1
  else ofRatio (n < 0) n.natAbs (Nat.pow 2 (-e).toNat)

/-- The nearest double to an integer, or none when it is out of range. -/
def ofInt? (n : Int) : Option Binary64 :=
  match ofRatio (n < 0) n.natAbs 1 with
  | finite s m e => some (finite s m e)
  | _ => none

def add : Binary64 → Binary64 → Binary64
  | nan, _ => nan
  | _, nan => nan
  | infinite s, infinite t => if s = t then infinite s else nan
  | infinite s, finite .. => infinite s
  | finite .., infinite t => infinite t
  | finite s m e, finite t n f =>
    let low := min e f
    let sum := signedMantissa s m * Nat.pow 2 (e - low).toNat + signedMantissa t n * Nat.pow 2 (f - low).toNat
    ofScaledInt (s && t) sum low

def mul : Binary64 → Binary64 → Binary64
  | nan, _ => nan
  | _, nan => nan
  | infinite s, infinite t => infinite (s != t)
  | infinite s, finite t n _ => if n = 0 then nan else infinite (s != t)
  | finite s m _, infinite t => if m = 0 then nan else infinite (s != t)
  | finite s m e, finite t n f =>
    ofScaledInt (s != t) (signedMantissa s m * signedMantissa t n) (e + f)

/-- Numeric equality: the zeros are equal and `nan` equals nothing. -/
def same : Binary64 → Binary64 → Bool
  | finite s m e, finite t n f => (m = 0 && n = 0) || (s = t && m = n && e = f)
  | infinite s, infinite t => s = t
  | _, _ => false

/-- The number is the integer `n`, exactly. -/
def isInt : Binary64 → Int → Bool
  | finite s m e, n =>
    if 0 ≤ e then signedMantissa s m * Nat.pow 2 e.toNat = n
    else signedMantissa s m = n * Nat.pow 2 (-e).toNat
  | _, _ => false

example : ofRatio false 1 1 = finite false leadingBit (-52) := by decide +kernel

example : ofDecimal false 5 (-324) = finite false 1 (-1074) := by decide +kernel

example : ofDecimal false 17976931348623159 292 = infinite false := by decide +kernel

example : (ofInt? 3).map (·.isInt 3) = some true := by decide +kernel

end Binary64

end NoteVault
