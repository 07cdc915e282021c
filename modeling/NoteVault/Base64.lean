/-!
Base64. Reading passes over characters outside the alphabet and stops at complete padding; writing
breaks lines after 76 characters.
-/
namespace NoteVault.Base64

inductive Fault where
  /-- One data character is left over; the number counts the characters read. -/
  | extraCharacter (count : Nat)
  | incorrectPadding
  deriving DecidableEq, Repr

def Fault.text : Fault → String
  | extraCharacter n =>
    "Invalid base64-encoded string: number of data characters (" ++ toString n ++
      ") cannot be 1 more than a multiple of 4"
  | incorrectPadding => "Incorrect padding"

/-- The value of a character of the alphabet. -/
def sextet? (c : Char) : Option Nat :=
  if c.isUpper then some (c.toNat - 65)
  else if c.isLower then some (c.toNat - 71)
  else if c.isDigit then some (c.toNat + 4)
  else if c = '+' then some 62
  else if c = '/' then some 63
  else none

/-- The character of a value below 64. -/
def alphabet (n : Nat) : Char :=
  if n < 26 then Char.ofNat (n + 65)
  else if n < 52 then Char.ofNat (n + 71)
  else if n < 62 then Char.ofNat (n - 4)
  else if n = 62 then '+' else '/'

/-- The octets that up to four values stand for. -/
def octets : List Nat → List UInt8
  | [a, b, c, d] =>
    [UInt8.ofNat (a * 4 + b / 16), UInt8.ofNat (b % 16 * 16 + c / 4), UInt8.ofNat (c % 4 * 64 + d)]
  | [a, b, c] => [UInt8.ofNat (a * 4 + b / 16), UInt8.ofNat (b % 16 * 16 + c / 4)]
  | [a, b] => [UInt8.ofNat (a * 4 + b / 16)]
  | _ => []

/-- Reads groups of four values; `group` is the unfinished one, `pads` the padding in a row behind it
and `count` the number of values read. -/
def decodeFrom (group : List Nat) (pads count : Nat) : List Char → Except Fault (List UInt8)
  | [] =>
    match group.length with
    | 0 => .ok []
    | 1 => .error (.extraCharacter count)
    | _ => .error .incorrectPadding
  | c :: rest =>
    if c = '=' then
      if 2 ≤ group.length then
        if 4 ≤ group.length + (pads + 1) then .ok (octets group)
        else decodeFrom group (pads + 1) count rest
      else decodeFrom group pads count rest
    else
      match sextet? c with
      | none => decodeFrom group pads count rest
      | some n =>
        let group := group ++ [n]
        if group.length = 4 then (decodeFrom [] 0 (count + 1) rest).map (octets group ++ ·)
        else decodeFrom group 0 (count + 1) rest

def decode (s : List Char) : Except Fault (List UInt8) := decodeFrom [] 0 0 s

/-- Three octets as four characters, with padding for those that are missing. -/
def encodeGroups : List UInt8 → List Char
  | [] => []
  | [a] => [alphabet (a.toNat / 4), alphabet (a.toNat % 4 * 16), '=', '=']
  | [a, b] =>
    [alphabet (a.toNat / 4), alphabet (a.toNat % 4 * 16 + b.toNat / 16), alphabet (b.toNat % 16 * 4), '=']
  | a :: b :: c :: rest =>
    alphabet (a.toNat / 4) :: alphabet (a.toNat % 4 * 16 + b.toNat / 16) ::
      alphabet (b.toNat % 16 * 4 + c.toNat / 64) :: alphabet (c.toNat % 64) :: encodeGroups rest

/-- Lines of at most `width` characters. -/
def linesOf (width : Nat) : Nat → List Char → List (List Char)
  | 0, _ => []
  | _ + 1, [] => []
  | fuel + 1, s => s.take width :: linesOf width fuel (s.drop width)

/-- The lines of the base64 text. -/
def encodeLines (octets : List UInt8) : List (List Char) :=
  let s := encodeGroups octets
  linesOf 76 s.length s

example : (decode "aGk=".toList).toOption = some [104, 105] ∧ encodeLines [104, 105] = ["aGk=".toList] := by
  decide +kernel

example : decode "abcde".toList = .error (.extraCharacter 5) := rfl

end NoteVault.Base64
