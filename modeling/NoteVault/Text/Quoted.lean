import NoteVault.Text.Printable

/-!
Quoted texts as they stand in messages. Single quotes are used unless the text holds a single quote and
no double quote; what cannot be printed is written by its code.
-/
namespace NoteVault.Text

/-- A number in lower-case hexadecimal, with zeros in front up to a width. -/
def hex (width n : Nat) : List Char :=
  let ds := Nat.toDigits 16 n
  List.replicate (width - ds.length) '0' ++ ds

/-- The quote that surrounds a text. -/
def quoteFor (s : List Char) : Char :=
  if s.contains '\'' && !s.contains '"' then '"' else '\''

/-- A character between quotes, given which characters are printed as they are. -/
def escaped (printable : Char → Bool) (quote c : Char) : List Char :=
  if c = quote ∨ c = '\\' then ['\\', c]
  else if c = '\n' then ['\\', 'n']
  else if c = '\r' then ['\\', 'r']
  else if c = '\t' then ['\\', 't']
  else if printable c then [c]
  else if c.toNat < 0x100 then '\\' :: 'x' :: hex 2 c.toNat
  else if c.toNat < 0x10000 then '\\' :: 'u' :: hex 4 c.toNat
  else '\\' :: 'U' :: hex 8 c.toNat

/-- The text between quotes. -/
def quoted (s : String) : String :=
  let q := quoteFor s.toList
  String.ofList (q :: s.toList.flatMap (escaped isPrintable q) ++ [q])

/-- Octets between quotes, the printable ones of ASCII as characters. -/
def quotedOctets (octets : List UInt8) : String :=
  let cs := octets.map fun b => Char.ofNat b.toNat
  let q := quoteFor cs
  let printable := fun c : Char => 32 ≤ c.toNat && c.toNat < 127
  String.ofList ('b' :: q :: cs.flatMap (escaped printable q) ++ [q])

example : quoted "it's" = "\"it's\"" ∧ quoted "a'b\"c" = "'a\\'b\"c'" := by decide +kernel

example : quoted "é\x07\t" = "'é\\x07\\t'" ∧ quotedOctets [104, 0] = "b'h\\x00'" := by decide +kernel

end NoteVault.Text
