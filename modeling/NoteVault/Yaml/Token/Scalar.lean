import NoteVault.Yaml.Token.Property

/-!
Scalars of a YAML text: plain, between quotes, and in blocks. Each reader returns the text that the
scalar stands for and the cursor behind it.
-/
namespace NoteVault.Yaml.Cursor

/-- Characters that have a meaning of their own inside brackets. -/
def isFlowSign (c : Char) : Bool := ",?[]\x7b\x7d".toList.contains c

/-- A character ends a run of a plain scalar: white space, a colon before white space, and inside
brackets the signs of collections. -/
def endsPlainRun (inFlow : Bool) (c : Char) (next : Option Char) : Bool :=
  endsWord (some c) ||
    (c = ':' && (endsWord next || (inFlow && next.any (",[]\x7b\x7d".toList.contains ·)))) ||
    (inFlow && isFlowSign c)

/-- The first run of a plain scalar. -/
def plainRun (inFlow : Bool) : List Char → List Char
  | [] => []
  | c :: rest => if endsPlainRun inFlow c rest.head? then [] else c :: plainRun inFlow rest

/-- Breaks and blanks behind the first break of a plain scalar: the breaks, or none at a document mark. -/
def plainBreaks : Nat → Cursor → Option (List Char) × Cursor
  | 0, c => (some [], c)
  | fuel + 1, c =>
    match c.peek with
    | some ' ' => plainBreaks fuel c.next
    | some x =>
      if isBreak x then
        let (lb, after) := c.lineBreak
        if after.atDocumentMark then (none, after)
        else
          let (more, last) := plainBreaks fuel after
          (more.map (lb ++ ·), last)
      else (some [], c)
    | none => (some [], c)

/-- A break between two lines becomes a blank, unless empty lines follow. -/
def foldBreaks (first breaks : List Char) : List Char :=
  if first ≠ ['\n'] then first ++ breaks else if breaks.isEmpty then [' '] else breaks

/-- White space behind a run: what it stands for, whether it holds a break, and the cursor behind. -/
def plainSpaces (c : Cursor) : List Char × Bool × Cursor :=
  let (blanks, after) := c.span (· = ' ')
  if after.peek.any isBreak then
    let (first, behind) := after.lineBreak
    if behind.atDocumentMark then ([], true, behind)
    else
      match plainBreaks behind.rest.length behind with
      | (none, last) => ([], true, last)
      | (some breaks, last) => (foldBreaks first breaks, true, last)
  else (blanks, false, after)

/-- A plain scalar: its text, the mark behind it, the cursor behind white space that follows it, and
whether that white space ends a line. -/
structure PlainScan where
  text : List Char
  stop : Mark
  cursor : Cursor
  brokeLine : Bool

def plainFrom (inFlow : Bool) (indent : Int) : Nat → List Char → PlainScan → PlainScan
  | 0, _, s => s
  | fuel + 1, spaces, s =>
    let c := s.cursor
    if c.at? '#' then s
    else
      let run := plainRun inFlow c.rest
      if run.isEmpty then s
      else
        let after := c.skip run.length
        let (spaces', broke, behind) := after.plainSpaces
        let s' : PlainScan := ⟨s.text ++ spaces ++ run, after.mark, behind, broke⟩
        if spaces'.isEmpty || behind.at? '#' || (!inFlow && (behind.column : Int) < indent) then s'
        else plainFrom inFlow indent fuel spaces' s'

/-- A plain scalar whose further lines are indented by `indent` at least. -/
def plain (inFlow : Bool) (indent : Int) (c : Cursor) : PlainScan :=
  plainFrom inFlow indent (c.rest.length + 1) [] ⟨[], c.mark, c, false⟩

/-- Breaks at a quoted scalar's line ends, with the white space before and behind them. -/
def quotedBreaks (start : Mark) : Nat → Cursor → Except Error (List Char × Cursor)
  | 0, c => .ok ([], c)
  | fuel + 1, c =>
    if c.atDocumentMark then faultAt .quotedScalar start .documentMark c
    else
      let after := (c.span fun x => x = ' ' || x = '\t').2
      if after.peek.any isBreak then do
        let (lb, behind) := after.lineBreak
        let (more, last) ← quotedBreaks start fuel behind
        .ok (lb ++ more, last)
      else .ok ([], after)

/-- White space in a quoted scalar: kept within a line, folded at a line's end. -/
def quotedSpaces (start : Mark) (c : Cursor) : Except Error (List Char × Cursor) :=
  let (blanks, after) := c.span fun x => x = ' ' || x = '\t'
  match after.peek with
  | none => faultAt .quotedScalar start .endOfText after
  | some x =>
    if isBreak x then do
      let (first, behind) := after.lineBreak
      let (breaks, last) ← quotedBreaks start (behind.rest.length + 1) behind
      .ok (foldBreaks first breaks, last)
    else .ok (blanks, after)

/-- Escapes of one letter. -/
def escapeLetters : List (Char × Char) :=
  [('0', '\x00'), ('a', '\x07'), ('b', '\x08'), ('t', '\t'), ('\t', '\t'), ('n', '\n'), ('v', '\x0b'),
   ('f', '\x0c'), ('r', '\r'), ('e', '\x1b'), (' ', ' '), ('"', '"'), ('\\', '\\'), ('/', '/'),
   ('N', '\x85'), ('_', '\xa0'), ('L', '\u2028'), ('P', '\u2029')]

/-- Escapes by number: the letter and how many digits follow. -/
def escapeNumbers : List (Char × Nat) := [('x', 2), ('u', 4), ('U', 8)]

/-- The character of a number. A surrogate is no character; it becomes the null character. -/
def charOf (n : Nat) : Except Error Char :=
  if n < 0x110000 then .ok (Char.ofNat n) else .error (.value (.codePoint (decide (0x80000000 ≤ n))))

/-- A number of so many hexadecimal digits. -/
def hexEscape (start : Mark) (count : Nat) (c : Cursor) : Except Error (Char × Cursor) :=
  let ds := (c.rest.take count).takeWhile isHexDigit
  if ds.length = count then do
    let x ← charOf (hexValue ds)
    .ok (x, c.skip count)
  else faultAt .doubleQuotedScalar start (.noHexDigits count (c.peekAt ds.length)) c

/-- What stands behind a backslash. -/
def escape (start : Mark) (c : Cursor) : Except Error (List Char × Cursor) :=
  match c.peek with
  | none => faultAt .doubleQuotedScalar start (.unknownEscape none) c
  | some x =>
    match escapeLetters.lookup x, escapeNumbers.lookup x with
    | some y, _ => .ok ([y], c.next)
    | none, some count => (hexEscape start count c.next).map fun (y, after) => ([y], after)
    | none, none =>
      if isBreak x then
        let behind := c.lineBreak.2
        quotedBreaks start (behind.rest.length + 1) behind
      else faultAt .doubleQuotedScalar start (.unknownEscape (some x)) c

/-- One step inside quotes: nothing at the closing quote, else the characters that were read. -/
def quotedStep (double : Bool) (start : Mark) (c : Cursor) : Except Error (Option (List Char) × Cursor) :=
  match c.peek with
  | none => faultAt .quotedScalar start .endOfText c
  | some x =>
    if x = ' ' ∨ x = '\t' ∨ isBreak x then (quotedSpaces start c).map fun (cs, after) => (some cs, after)
    else if double then
      if x = '"' then .ok (none, c.next)
      else if x = '\\' then (escape start c.next).map fun (cs, after) => (some cs, after)
      else .ok (some [x], c.next)
    else if x = '\'' then
      if c.peekAt 1 = some '\'' then .ok (some ['\''], c.skip 2) else .ok (none, c.next)
    else .ok (some [x], c.next)

def quotedFrom (double : Bool) (start : Mark) : Nat → Cursor → Except Error (List Char × Cursor)
  | 0, c => .ok ([], c)
  | fuel + 1, c => do
    match ← quotedStep double start c with
    | (none, after) => .ok ([], after)
    | (some cs, after) =>
      let (more, last) ← quotedFrom double start fuel after
      .ok (cs ++ more, last)

/-- A scalar between quotes. -/
def quoted (double : Bool) (c : Cursor) : Except Error (List Char × Cursor) :=
  quotedFrom double c.mark (c.rest.length + 1) c.next

/-- What becomes of the breaks at the end of a block: one is kept, none, or all. -/
inductive Chomping where
  | clip | strip | keep
  deriving DecidableEq

/-- The chomping and the indentation given behind the sign of a block scalar, in either order. -/
def blockIndicators (start : Mark) (c : Cursor) : Except Error (Chomping × Option Nat × Cursor) := do
  let chomp := fun (c : Cursor) => match c.peek with
    | some '+' => (some Chomping.keep, c.next)
    | some '-' => (some Chomping.strip, c.next)
    | _ => (none, c)
  let digit := fun (c : Cursor) => match c.peek with
    | some x =>
      if x = '0' then faultAt .blockScalar start .zeroIndentation c
      else if x.isDigit then Except.ok (some (x.toNat - 48), c.next)
      else .ok (none, c)
    | none => .ok (none, c)
  let (chomping, c) := chomp c
  let (increment, c) ← digit c
  let (chomping, c) := if chomping.isNone && increment.isSome then chomp c else (chomping, c)
  if endsField c.peek then .ok (chomping.getD .clip, increment, c)
  else faultAt .blockScalar start (.noIndicators c.peek) c

/-- Blank lines at the beginning of a block: the breaks, the deepest column, the mark behind the last
break. -/
def blockLead : Nat → Nat → Mark → Cursor → List Char × Nat × Mark × Cursor
  | 0, deepest, stop, c => ([], deepest, stop, c)
  | fuel + 1, deepest, stop, c =>
    match c.peek with
    | some ' ' => blockLead fuel (max deepest c.next.column) stop c.next
    | some x =>
      if isBreak x then
        let (lb, after) := c.lineBreak
        let (more, deepest, stop, last) := blockLead fuel deepest after.mark after
        (lb ++ more, deepest, stop, last)
      else ([], deepest, stop, c)
    | none => ([], deepest, stop, c)

/-- Passes over blanks up to a column. -/
def toColumn (indent : Nat) : Nat → Cursor → Cursor
  | 0, c => c
  | fuel + 1, c => if c.column < indent && c.at? ' ' then toColumn indent fuel c.next else c

/-- Breaks between the lines of a block, and the cursor at the indentation of the next line. -/
def blockBreaks (indent : Nat) : Nat → Mark → Cursor → List Char × Mark × Cursor
  | 0, stop, c => ([], stop, c)
  | fuel + 1, stop, c =>
    let c := toColumn indent indent c
    if c.peek.any isBreak then
      let (lb, after) := c.lineBreak
      let (more, stop, last) := blockBreaks indent fuel after.mark after
      (lb ++ more, stop, last)
    else ([], stop, c)

/-- The next character begins a line that is not indented further. -/
def startsFlush (c : Cursor) : Bool := !(c.peek.any fun x => x = ' ' || x = '\t')

/-- The lines of a block from one of them on: text, breaks before the line, last break, breaks behind
the last line, and the mark behind them. -/
def blockLines (folded : Bool) (indent : Nat) :
    Nat → List Char → List Char → List Char → Mark → Cursor → List Char × List Char × List Char × Mark × Cursor
  | 0, text, last, breaks, stop, c => (text, last, breaks, stop, c)
  | fuel + 1, text, last, breaks, stop, c =>
    if c.column = indent && c.peek.isSome then
      let flush := c.startsFlush
      let (line, after) := c.span (!isBreak ·)
      let text := text ++ breaks ++ line
      let (lb, behind) := after.lineBreak
      let (breaks, stop, c) := blockBreaks indent (behind.rest.length + 1) behind.mark behind
      if c.column = indent && c.peek.isSome then
        let joint :=
          if folded && lb = ['\n'] && flush && c.startsFlush then
            if breaks.isEmpty then [' '] else []
          else lb
        blockLines folded indent fuel (text ++ joint) lb breaks stop c
      else (text, lb, breaks, stop, c)
    else (text, last, breaks, stop, c)

/-- A scalar in a block below the indentation `parent`: its text and the mark behind it. -/
def block (folded : Bool) (parent : Int) (c : Cursor) : Except Error (List Char × Mark × Cursor) := do
  let start := c.mark
  let (chomping, increment, c) ← c.next.blockIndicators start
  let c ← c.ignoredLine .blockScalar start
  let least := (max (parent + 1) 1).toNat
  let fuel := c.rest.length + 1
  let (indent, breaks, stop, c) := match increment with
    | none =>
      let (breaks, deepest, stop, c) := blockLead fuel 0 c.mark c
      (max least deepest, breaks, stop, c)
    | some n =>
      let indent := least + n - 1
      let (breaks, stop, c) := blockBreaks indent fuel c.mark c
      (indent, breaks, stop, c)
  let (text, last, breaks, stop, c) := blockLines folded indent fuel [] [] breaks stop c
  let tail := match chomping with
    | .strip => []
    | .clip => last
    | .keep => last ++ breaks
  .ok (text ++ tail, stop, c)

end NoteVault.Yaml.Cursor
