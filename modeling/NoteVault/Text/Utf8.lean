/-!
UTF-8 as octets. A text that is not well formed is refused with the octets at fault and the reason.
-/
namespace NoteVault.Utf8

inductive Reason where
  | invalidStart
  | invalidContinuation
  | unexpectedEnd
  deriving DecidableEq, Repr

def Reason.text : Reason → String
  | invalidStart => "invalid start byte"
  | invalidContinuation => "invalid continuation byte"
  | unexpectedEnd => "unexpected end of data"

/-- The first fault of a text: octets from `start` up to, not including, `stop`. -/
structure Fault where
  reason : Reason
  start : Nat
  stop : Nat
  octet : UInt8
  deriving DecidableEq, Repr

/-- A fault names its octet, or its range of octets when there are several. -/
def Fault.text (f : Fault) : String :=
  let place :=
    if f.stop = f.start + 1 then
      let ds := Nat.toDigits 16 f.octet.toNat
      "byte 0x" ++ String.ofList (List.replicate (2 - ds.length) '0' ++ ds) ++ " in position " ++ toString f.start
    else "bytes in position " ++ toString f.start ++ "-" ++ toString (f.stop - 1)
  "'utf-8' codec can't decode " ++ place ++ ": " ++ f.reason.text

/-- The class of a first octet: how many octets follow it, and the range of the second. -/
inductive Lead where
  | single
  | many (following : Nat) (low high : Nat)
  | invalid

def lead (b : Nat) : Lead :=
  if b < 0x80 then .single
  else if b < 0xC2 then .invalid
  else if b < 0xE0 then .many 1 0x80 0xBF
  else if b = 0xE0 then .many 2 0xA0 0xBF
  else if b = 0xED then .many 2 0x80 0x9F
  else if b < 0xF0 then .many 2 0x80 0xBF
  else if b = 0xF0 then .many 3 0x90 0xBF
  else if b < 0xF4 then .many 3 0x80 0xBF
  else if b = 0xF4 then .many 3 0x80 0x8F
  else .invalid

/-- Reads the octets that follow a first one: the rest of the code point, the octets used, and the
fault if one of them is missing or out of range. -/
def following (code used : Nat) (low high : Nat) : Nat → List UInt8 → Nat × Nat × Option Reason
  | 0, _ => (code, used, none)
  | _ + 1, [] => (code, used, some .unexpectedEnd)
  | n + 1, b :: rest =>
    if low ≤ b.toNat && b.toNat ≤ high then
      following (code * 64 + b.toNat % 64) (used + 1) 0x80 0xBF n rest
    else (code, used, some .invalidContinuation)

/-- The bits of a first octet that belong to the code point. -/
def leadBits (n b : Nat) : Nat := b % Nat.pow 2 (6 - n)

/-- Reads characters from an offset; `skip` octets at the front belong to a character already read. -/
def decodeFrom (offset skip : Nat) : List UInt8 → Except Fault (List Char)
  | [] => .ok []
  | b :: rest =>
    match skip with
    | skip + 1 => decodeFrom (offset + 1) skip rest
    | 0 =>
      match lead b.toNat with
      | .invalid => .error ⟨.invalidStart, offset, offset + 1, b⟩
      | .single => (decodeFrom (offset + 1) 0 rest).map (Char.ofNat b.toNat :: ·)
      | .many n low high =>
        match following (leadBits n b.toNat) 1 low high n rest with
        | (code, used, none) => (decodeFrom (offset + 1) (used - 1) rest).map (Char.ofNat code :: ·)
        | (_, used, some reason) => .error ⟨reason, offset, offset + used, b⟩

/-- The characters of a UTF-8 text. -/
def decode (octets : List UInt8) : Except Fault (List Char) := decodeFrom 0 0 octets

example : decode [0x61, 0xC3, 0xA9, 0xF0, 0x9F, 0x98, 0x80] = .ok ['a', 'é', '😀'] := rfl

example : decode [0xED, 0xA0, 0x80] = .error ⟨.invalidContinuation, 0, 1, 0xED⟩ := rfl

example : decode [0x61, 0xE2, 0x82] = .error ⟨.unexpectedEnd, 1, 3, 0xE2⟩ := rfl

end NoteVault.Utf8
