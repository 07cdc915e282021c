/-!
Places in a YAML text. A cursor holds the characters that are still to be read, and a mark counts the
characters, lines and columns that have been read.
-/
namespace NoteVault.Yaml

/-- Characters read so far, lines begun after the first one, and characters read of the line. -/
structure Mark where
  index : Nat
  line : Nat
  column : Nat
  deriving DecidableEq, Repr, Inhabited

structure Cursor where
  rest : List Char
  mark : Mark
  deriving DecidableEq, Repr

/-- Characters that end a line. -/
def isBreak (c : Char) : Bool :=
  c = '\n' || c = '\r' || c = '\x85' || c = '\u2028' || c = '\u2029'

/-- The end of the text or of a line. -/
def endsLine : Option Char → Bool
  | none => true
  | some c => isBreak c

/-- The end of the text or of a line, or a blank. -/
def endsField : Option Char → Bool
  | none => true
  | some c => c = ' ' || isBreak c

/-- The end of the text or of a line, a blank or a tab. -/
def endsWord : Option Char → Bool
  | none => true
  | some c => c = ' ' || c = '\t' || isBreak c

/-- The mark behind one more character. A carriage return before a line feed does not end the line, and
a byte order mark takes no column. -/
def Mark.after (m : Mark) (c : Char) (next : Option Char) : Mark :=
  if isBreak c && !(c = '\r' && next = some '\n') then ⟨m.index + 1, m.line + 1, 0⟩
  else if c = '\ufeff' then ⟨m.index + 1, m.line, m.column⟩
  else ⟨m.index + 1, m.line, m.column + 1⟩

namespace Cursor

def ofString (s : String) : Cursor := ⟨s.toList, ⟨0, 0, 0⟩⟩

def peek (c : Cursor) : Option Char := c.rest.head?

def peekAt (c : Cursor) (n : Nat) : Option Char := c.rest[n]?

/-- The next character is `x`. -/
def at? (c : Cursor) (x : Char) : Bool := c.peek = some x

def column (c : Cursor) : Nat := c.mark.column

/-- Reads one character; at the end of the text it stays. -/
def next (c : Cursor) : Cursor :=
  match c.rest with
  | [] => c
  | x :: rest => ⟨rest, c.mark.after x rest.head?⟩

def skip (c : Cursor) : Nat → Cursor
  | 0 => c
  | n + 1 => c.next.skip n

/-- Reads the longest run of characters of a class. -/
def span (p : Char → Bool) (c : Cursor) : List Char × Cursor :=
  let run := c.rest.takeWhile p
  (run, c.skip run.length)

/-- Passes over a run of one character. -/
def skipAll (x : Char) (c : Cursor) : Cursor := (c.span (· = x)).2

/-- Goes to the end of the line. -/
def toLineEnd (c : Cursor) : Cursor := (c.span (!isBreak ·)).2

/-- Reads the end of a line, if the cursor stands at one. All but two kinds of it count as a line feed. -/
def lineBreak (c : Cursor) : List Char × Cursor :=
  match c.rest with
  | '\r' :: '\n' :: _ => (['\n'], c.skip 2)
  | x :: _ =>
    if x = '\u2028' ∨ x = '\u2029' then ([x], c.next)
    else if isBreak x then (['\n'], c.next)
    else ([], c)
  | [] => ([], c)

/-- Three equal characters that begin or end a document, with white space or nothing behind them. -/
def atDocumentMark (c : Cursor) : Bool :=
  (c.rest.take 3 = ['-', '-', '-'] || c.rest.take 3 = ['.', '.', '.']) && endsWord (c.peekAt 3)

@[simp] theorem next_rest (c : Cursor) : c.next.rest = c.rest.tail := by
  unfold next
  split <;> simp_all

@[simp] theorem skip_rest (c : Cursor) (n : Nat) : (c.skip n).rest = c.rest.drop n := by
  induction n generalizing c with
  | zero => rfl
  | succ n ih => simp [skip, ih]

end Cursor

/-- The characters around a place that share its line, left and right of it. -/
def lineAround (source : List Char) (index : Nat) : List Char × List Char :=
  ((((source.take index).reverse.takeWhile (!isBreak ·)).reverse),
    (source.drop index).takeWhile (!isBreak ·))

/-- A line is cut thirty-two characters to the left and to the right of the place when it goes on for
thirty-seven or more. -/
def snippet (source : List Char) (index : Nat) : List Char :=
  let (left, right) := lineAround source index
  let (before, left) :=
    if 37 ≤ left.length then (" ... ".toList, left.drop (left.length - 32)) else ([], left)
  let (right, behind) := if 37 ≤ right.length then (right.take 32, " ... ".toList) else (right, [])
  List.replicate 4 ' ' ++ before ++ left ++ right ++ behind ++ ['\n'] ++
    List.replicate (4 + left.length + before.length) ' ' ++ ['^']

/-- A place as an error names it, with lines and columns counted from one, and its line. -/
def Mark.text (source : List Char) (m : Mark) : String :=
  "  in \"<unicode string>\", line " ++ toString (m.line + 1) ++ ", column " ++ toString (m.column + 1) ++
    ":\n" ++ String.ofList (snippet source m.index)

example : (Cursor.ofString "a\r\nb").skip 3 = ⟨['b'], ⟨3, 1, 0⟩⟩ := by decide +kernel

end NoteVault.Yaml
