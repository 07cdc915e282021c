import NoteVault.Text.Quoted
import NoteVault.Yaml.Tag
import NoteVault.Yaml.Token

/-!
How a scalar is written: plain when its text allows it and reads back with its tag, else between single
quotes, else between double quotes with escapes, or in a block when that is asked for.
-/
namespace NoteVault.Yaml.Form

/-- Characters that end a line of a scalar that is written. -/
def isBreak (c : Char) : Bool := c = '\n' || c = '\x85' || c = '\u2028' || c = '\u2029'

/-- White space around the signs that have a meaning in a plain scalar. -/
def isSpace (c : Char) : Bool := c = '\x00' || c = ' ' || c = '\t' || c = '\r' || isBreak c

/-- Characters that can be written as they are. -/
def isOrdinary (c : Char) : Bool :=
  let n := c.toNat
  n = 10 || (32 ≤ n && n ≤ 126) || n = 0x85 || (0xA0 ≤ n && n ≤ 0xD7FF) ||
    (0xE000 ≤ n && n ≤ 0xFFFD && n ≠ 0xFEFF) || (0x10000 ≤ n && n < 0x10FFFF)

/-- Somewhere a character of one class stands before one of another. -/
def hasPair (p q : Char → Bool) : List Char → Bool
  | a :: b :: rest => (p a && q b) || hasPair p q (b :: rest)
  | _ => false

/-- The text ends behind a character, or white space follows it. -/
def spaceFollows : List Char → Bool
  | [] => true
  | c :: _ => isSpace c

/-- A sign with a meaning stands in the text: a colon before white space, or a number sign behind it. -/
def hasInnerSign : List Char → Bool
  | [] => false
  | c :: rest =>
    (c = ':' && spaceFollows rest) || (isSpace c && rest.head? = some '#') || hasInnerSign rest

/-- The text begins with a sign that has a meaning there. -/
def startsWithSign : List Char → Bool
  | [] => false
  | c :: rest =>
    "#,[]\x7b\x7d&*!|>'\"%@\x60".toList.contains c || (['?', ':', '-'].contains c && spaceFollows rest) ||
      (c :: rest).take 3 = ['-', '-', '-'] || (c :: rest).take 3 = ['.', '.', '.']

def hasBreak (s : List Char) : Bool := s.any isBreak

def isBlank (c : Char) : Bool := c = ' '

/-- White space before a line's end, or a character that needs an escape. -/
def needsDouble (s : List Char) : Bool := hasPair isBlank isBreak s || !s.all isOrdinary

/-- Between single quotes no line may begin with a blank. -/
def allowsSingle (s : List Char) : Bool := !needsDouble s && !hasPair isBreak isBlank s

/-- A plain scalar is one line without blanks at its ends and without signs. -/
def allowsPlain (s : List Char) : Bool :=
  allowsSingle s && !hasBreak s && !s.head?.any isBlank && !s.getLast?.any isBlank &&
    !startsWithSign s && !hasInnerSign s

/-- A block holds any text that needs no escape and does not end with a blank. -/
def allowsBlock (s : List Char) : Bool := !s.isEmpty && !needsDouble s && !s.getLast?.any isBlank

/-- The style of a text. `wish` asks for double quotes or for a block, `readsBack` says that the plain
text has the right tag, and `asKey` that the text stands before a colon on its line. -/
def style (wish : Option Style) (readsBack asKey : Bool) (s : List Char) : Style :=
  match wish with
  | some .double => .double
  | some .literal => if allowsBlock s && !asKey then .literal else .double
  | _ =>
    if readsBack && allowsPlain s && !(asKey && s.isEmpty) then .plain
    else if allowsSingle s && !(asKey && hasBreak s) then .single
    else .double

def spaces (n : Nat) : List Char := List.replicate n ' '

/-- A text between single quotes: quotes are doubled, and so is the first break of several in a row.
Further lines are indented. -/
def singleBody (indent : Nat) (behindBreak : Bool) : List Char → List Char
  | [] => if behindBreak then spaces indent else []
  | c :: rest =>
    if isBreak c then
      (if !behindBreak && c = '\n' then ['\n', c] else [c]) ++ singleBody indent true rest
    else
      (if behindBreak then spaces indent else []) ++
        (if c = '\'' then ['\'', '\''] else [c]) ++ singleBody indent false rest

/-- Letters that stand for characters behind a backslash. -/
def escapeLetters : List (Char × Char) :=
  [('\x00', '0'), ('\x07', 'a'), ('\x08', 'b'), ('\t', 't'), ('\n', 'n'), ('\x0b', 'v'), ('\x0c', 'f'),
   ('\r', 'r'), ('\x1b', 'e'), ('"', '"'), ('\\', '\\'), ('\x85', 'N'), ('\xa0', '_'), ('\u2028', 'L'),
   ('\u2029', 'P')]

/-- A number in upper-case hexadecimal. -/
def upperHex (width n : Nat) : List Char := (Text.hex width n).map Char.toUpper

/-- Characters that stand between double quotes as they are. -/
def isBare (c : Char) : Bool :=
  let n := c.toNat
  c ≠ '"' && c ≠ '\\' && n ≠ 0x2028 && n ≠ 0x2029 && n ≠ 0xFEFF &&
    ((32 ≤ n && n ≤ 126) || (0xA0 ≤ n && n ≤ 0xD7FF) || (0xE000 ≤ n && n ≤ 0xFFFD))

/-- A character between double quotes. -/
def doubleChar (c : Char) : List Char :=
  if isBare c then [c]
  else match escapeLetters.lookup c with
    | some letter => ['\\', letter]
    | none =>
      let n := c.toNat
      if n ≤ 0xFF then '\\' :: 'x' :: upperHex 2 n
      else if n ≤ 0xFFFF then '\\' :: 'u' :: upperHex 4 n
      else '\\' :: 'U' :: upperHex 8 n

/-- A text in a style, with further lines indented. A block's text is given line by line. -/
def body (indent : Nat) (style : Style) (s : List Char) : List Char :=
  match style with
  | .plain => s
  | .single => '\'' :: singleBody indent false s ++ ['\'']
  | .double => '"' :: s.flatMap doubleChar ++ ['"']
  | _ => '|' :: (Text.fields '\n' s).flatMap fun line => if line.isEmpty then [] else '\n' :: spaces indent ++ line

/-- The tag has to be written, because the text would read back with another one. -/
def showsTag (style : Style) (tag : Tag) (s : List Char) : Bool :=
  if style = .plain then Tag.ofPlain (String.ofList s) ≠ tag else tag ≠ .str

/-- A tag as it is written. -/
def tagText (tag : Tag) : List Char :=
  match tag with
  | .other text => text.toList
  | tag => ("!!" ++ ((Tag.names.find? (·.2 = tag)).map (·.1)).getD "").toList

/-- A scalar with its tag if that has to be written. -/
def scalar (indent : Nat) (asKey : Bool) (tag : Tag) (wish : Option Style) (s : List Char) : List Char :=
  let style := style wish (Tag.ofPlain (String.ofList s) = tag) asKey s
  (if showsTag style tag s then tagText tag ++ [' '] else []) ++ body indent style s

example : scalar 2 false .str none "it's: x".toList = "'it''s: x'".toList := by decide +kernel

example : scalar 2 false .str none "12".toList = "'12'".toList ∧
    scalar 2 false .int none "12".toList = "12".toList := by decide +kernel

example : scalar 2 false .str none "a\nb".toList = "'a\n\n  b'".toList ∧
    scalar 2 false .str none "a\tb".toList = "\"a\\tb\"".toList := by decide +kernel

end NoteVault.Yaml.Form
