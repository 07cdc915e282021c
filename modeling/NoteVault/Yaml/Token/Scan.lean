import NoteVault.Yaml.Token.Scalar

/-!
The tokens of a YAML text. A scalar or a closed collection may turn out to be a key when a colon follows
it on the same line; until that is known it is a simple key, and the tokens behind it are held back.
-/
namespace NoteVault.Yaml

/-- Something that may turn out to be a key: the number of its first token and its place. A required key
stands where the indentation leaves no other possibility. -/
structure SimpleKey where
  number : Nat
  required : Bool
  mark : Mark
  deriving DecidableEq, Repr

/-- The state of the scanner. `tokens` holds the latest token first, and `outer` the simple keys of the
brackets around the cursor, the innermost first. -/
structure Scan where
  cursor : Cursor
  tokens : List Token
  count : Nat
  simpleKey : Option SimpleKey
  outer : List (Option SimpleKey)
  indent : Int
  indents : List Int
  keyAllowed : Bool

/-- The tokens that a reader can get to, and why there are no more of them if the text is at fault. -/
structure TokenList where
  tokens : List Token
  failure : Option Error

namespace Scan

def start (s : String) : Scan := ⟨.ofString s, [], 0, none, [], -1, [], true⟩

def inFlow (s : Scan) : Bool := !s.outer.isEmpty

/-- A fault at the cursor without a context. -/
def refuse {α : Type} (s : Scan) (problem : Problem) : Except Error α :=
  .error (.fault ⟨none, problem, s.cursor.mark⟩)

def push (kind : TokenKind) (start stop : Mark) (s : Scan) : Scan :=
  { s with tokens := ⟨kind, start, stop⟩ :: s.tokens, count := s.count + 1 }

/-- A token without extent at the cursor. -/
def pushHere (kind : TokenKind) (s : Scan) : Scan := s.push kind s.cursor.mark s.cursor.mark

/-- A token without extent in front of the token with a number. -/
def insert (number : Nat) (kind : TokenKind) (mark : Mark) (s : Scan) : Scan :=
  let behind := s.count - number
  { s with
    tokens := s.tokens.take behind ++ ⟨kind, mark, mark⟩ :: s.tokens.drop behind
    count := s.count + 1 }

/-- A token of so many characters at the cursor. -/
def pushSign (kind : TokenKind) (length : Nat) (s : Scan) : Scan :=
  let after := s.cursor.skip length
  { s.push kind s.cursor.mark after.mark with cursor := after }

/-- Closes the collections that are indented further than a column. Brackets suspend indentation. -/
def closeTo (column : Int) (s : Scan) : Scan :=
  if s.inFlow then s else close s.indents.length s
where
  close : Nat → Scan → Scan
  | 0, s => s
  | fuel + 1, s =>
    if column < s.indent then
      close fuel ({ s with indent := s.indents.headD (-1), indents := s.indents.tail }.pushHere .blockEnd)
    else s

/-- Opens a collection at a column, if none is open there: the new state, and whether one was opened. -/
def open? (column : Int) (s : Scan) : Scan × Bool :=
  if s.indent < column then ({ s with indent := column, indents := s.indent :: s.indents }, true)
  else (s, false)

/-- Opens a collection at the cursor's column, with a token for its start. -/
def openHere (kind : TokenKind) (s : Scan) : Scan :=
  match s.open? s.cursor.column with
  | (s', true) => s'.pushHere kind
  | (_, false) => s

/-- A key is given up at the end of its line, and after 1024 characters. -/
def isStale (s : Scan) (k : SimpleKey) : Bool :=
  k.mark.line ≠ s.cursor.mark.line || 1024 < s.cursor.mark.index - k.mark.index

def noKeyEnd {α : Type} (s : Scan) (k : SimpleKey) : Except Error α :=
  faultAt .simpleKey k.mark .noKeyEnd s.cursor

/-- Gives up the keys that can no longer be keys; a required one may not be given up. -/
def dropStale (s : Scan) : Except Error Scan :=
  let fresh := fun k => if s.isStale k then none else some k
  match (s.simpleKey :: s.outer).find? fun k => k.any fun k => k.required && s.isStale k with
  | some (some k) => s.noKeyEnd k
  | _ => .ok { s with simpleKey := s.simpleKey.bind fresh, outer := s.outer.map (·.bind fresh) }

/-- Gives up the simple key of the innermost collection. -/
def dropKey (s : Scan) : Except Error Scan :=
  match s.simpleKey with
  | some k => if k.required then s.noKeyEnd k else .ok { s with simpleKey := none }
  | none => .ok s

/-- What comes next may turn out to be a key. -/
def saveKey (s : Scan) : Except Error Scan :=
  if s.keyAllowed then do
    let required := !s.inFlow && s.indent = s.cursor.column
    let s ← s.dropKey
    .ok { s with simpleKey := some ⟨s.count, required, s.cursor.mark⟩ }
  else .ok s

/-- Passes over blanks, comments and ends of lines. -/
def toToken (s : Scan) : Scan :=
  let s := if s.cursor.mark.index = 0 && s.cursor.at? '\ufeff' then { s with cursor := s.cursor.next } else s
  loop (s.cursor.rest.length + 1) s
where
  loop : Nat → Scan → Scan
  | 0, s => s
  | fuel + 1, s =>
    let c := s.cursor.skipAll ' '
    let c := if c.at? '#' then c.toLineEnd else c
    if c.peek.any isBreak then
      loop fuel { s with cursor := c.lineBreak.2, keyAllowed := s.keyAllowed || !s.inFlow }
    else { s with cursor := c }

def streamEnd (s : Scan) : Except Error Scan := do
  let s ← (s.closeTo (-1)).dropKey
  .ok ({ s with keyAllowed := false, simpleKey := none, outer := [] }.pushHere .streamEnd)

def directive (s : Scan) : Except Error Scan := do
  let s ← (s.closeTo (-1)).dropKey
  let (d, stop, after) ← s.cursor.directive
  .ok { s.push (.directive d) s.cursor.mark stop with cursor := after, keyAllowed := false }

def documentMark (kind : TokenKind) (s : Scan) : Except Error Scan := do
  let s ← (s.closeTo (-1)).dropKey
  .ok ({ s with keyAllowed := false }.pushSign kind 3)

def flowStart (kind : TokenKind) (s : Scan) : Except Error Scan := do
  let s ← s.saveKey
  .ok ({ s with simpleKey := none, outer := s.simpleKey :: s.outer, keyAllowed := true }.pushSign kind 1)

def flowEnd (kind : TokenKind) (s : Scan) : Except Error Scan := do
  let s ← s.dropKey
  .ok ({ s with simpleKey := s.outer.headD none, outer := s.outer.tail, keyAllowed := false }.pushSign kind 1)

def flowEntry (s : Scan) : Except Error Scan := do
  let s ← s.dropKey
  .ok ({ s with keyAllowed := true }.pushSign .flowEntry 1)

def blockEntry (s : Scan) : Except Error Scan :=
  if !s.inFlow && !s.keyAllowed then s.refuse .sequenceEntryHere
  else do
    let s := if s.inFlow then s else s.openHere .blockSequenceStart
    let s ← s.dropKey
    .ok ({ s with keyAllowed := true }.pushSign .blockEntry 1)

def key (s : Scan) : Except Error Scan :=
  if !s.inFlow && !s.keyAllowed then s.refuse .mappingKeyHere
  else do
    let s := if s.inFlow then s else s.openHere .blockMappingStart
    let s ← s.dropKey
    .ok ({ s with keyAllowed := !s.inFlow }.pushSign .key 1)

/-- A colon: what stands before it becomes a key if it can, and with it the start of a mapping. -/
def value (s : Scan) : Except Error Scan :=
  match s.simpleKey with
  | some k =>
    let s := { s with simpleKey := none }.insert k.number .key k.mark
    let s := if s.inFlow then s else
      match s.open? k.mark.column with
      | (s', true) => s'.insert k.number .blockMappingStart k.mark
      | (_, false) => s
    .ok ({ s with keyAllowed := false }.pushSign .value 1)
  | none =>
    if !s.inFlow && !s.keyAllowed then s.refuse .mappingValueHere
    else
      let s := if s.inFlow then s else s.openHere .blockMappingStart
      .ok ({ s with keyAllowed := !s.inFlow }.pushSign .value 1)

/-- A token with a text of its own, which may begin a key. -/
def withText (s : Scan) (read : Cursor → Except Error (TokenKind × Cursor)) : Except Error Scan := do
  let s ← s.saveKey
  let (kind, after) ← read s.cursor
  .ok { s.push kind s.cursor.mark after.mark with cursor := after, keyAllowed := false }

def aliasName (s : Scan) : Except Error Scan :=
  s.withText fun c => (c.anchorName .aliasName).map fun (name, c) => (.aliasName name, c)

def anchor (s : Scan) : Except Error Scan :=
  s.withText fun c => (c.anchorName .anchorName).map fun (name, c) => (.anchor name, c)

def tag (s : Scan) : Except Error Scan := s.withText fun c => c.tag.map fun (t, c) => (.tag t, c)

def quoted (double : Bool) (s : Scan) : Except Error Scan :=
  s.withText fun c => (c.quoted double).map fun (text, c) =>
    (.scalar (String.ofList text) (if double then .double else .single), c)

def block (folded : Bool) (s : Scan) : Except Error Scan := do
  let s ← s.dropKey
  let (text, stop, after) ← s.cursor.block folded s.indent
  let kind := TokenKind.scalar (String.ofList text) (if folded then .folded else .literal)
  .ok { s.push kind s.cursor.mark stop with cursor := after, keyAllowed := true }

def plain (s : Scan) : Except Error Scan := do
  let s ← s.saveKey
  let p := s.cursor.plain s.inFlow (s.indent + 1)
  .ok { s.push (.scalar (String.ofList p.text) .plain) s.cursor.mark p.stop with
    cursor := p.cursor, keyAllowed := p.brokeLine }

/-- A plain scalar can begin with most characters, with three of the signs only before other text. -/
def plainStarts (s : Scan) (x : Char) : Bool :=
  !(endsWord (some x) || "-?:,[]\x7b\x7d#&*!|>'\"%@\x60".toList.contains x) ||
    (!endsWord (s.cursor.peekAt 1) && (x = '-' || (!s.inFlow && (x = '?' || x = ':'))))

/-- Three equal characters at the beginning of a line, with white space or nothing behind them. -/
def atMark (s : Scan) (x : Char) : Bool :=
  s.cursor.column = 0 && s.cursor.rest.take 3 = [x, x, x] && endsWord (s.cursor.peekAt 3)

/-- Reads what begins with a character. -/
def token (s : Scan) (x : Char) : Except Error Scan :=
  let spaced := endsWord (s.cursor.peekAt 1)
  if x = '%' && s.cursor.column = 0 then s.directive
  else if s.atMark '-' then s.documentMark .documentStart
  else if s.atMark '.' then s.documentMark .documentEnd
  else if x = '[' then s.flowStart .flowSequenceStart
  else if x = '\x7b' then s.flowStart .flowMappingStart
  else if x = ']' then s.flowEnd .flowSequenceEnd
  else if x = '\x7d' then s.flowEnd .flowMappingEnd
  else if x = ',' then s.flowEntry
  else if x = '-' && spaced then s.blockEntry
  else if x = '?' && (s.inFlow || spaced) then s.key
  else if x = ':' && (s.inFlow || spaced) then s.value
  else if x = '*' then s.aliasName
  else if x = '&' then s.anchor
  else if x = '!' then s.tag
  else if x = '|' && !s.inFlow then s.block false
  else if x = '>' && !s.inFlow then s.block true
  else if x = '\'' then s.quoted false
  else if x = '"' then s.quoted true
  else if s.plainStarts x then s.plain
  else .error (.fault ⟨some (.token, none), .noToken (some x), s.cursor.mark⟩)

/-- Reads up to and over the next token; nothing is left to read when the text has ended. -/
def step (s : Scan) : Except Error (Scan × Bool) := do
  let s ← s.toToken.dropStale
  let s := s.closeTo s.cursor.column
  match s.cursor.peek with
  | none => return (← s.streamEnd, false)
  | some x =>
    let s ← s.token x
    return (← s.dropStale, true)

/-- How many tokens a reader can have taken when more of the text is read: no token from the first
simple key on. -/
def released (s : Scan) : Nat :=
  (s.simpleKey :: s.outer).foldl (fun n k => min n ((k.map (·.number)).getD n)) s.count

def run : Nat → Scan → TokenList
  | 0, s => ⟨s.tokens.reverse, none⟩
  | fuel + 1, s =>
    match s.step with
    | .error e => ⟨s.tokens.reverse.take s.released, some e⟩
    | .ok (s', true) => run fuel s'
    | .ok (s', false) => ⟨s'.tokens.reverse, none⟩

end Scan

/-- Characters that may stand in a text. -/
def isAcceptable (c : Char) : Bool :=
  let n := c.toNat
  n = 9 || n = 10 || n = 13 || (32 ≤ n && n ≤ 126) || n = 0x85 || (0xA0 ≤ n && n ≤ 0xD7FF) ||
    (0xE000 ≤ n && n ≤ 0xFFFD) || 0x10000 ≤ n

/-- The first character that may not stand in a text, and its position. -/
def firstUnacceptable (position : Nat) : List Char → Option (Char × Nat)
  | [] => none
  | c :: rest => if isAcceptable c then firstUnacceptable (position + 1) rest else some (c, position)

/-- The tokens of a text. -/
def TokenList.ofString (s : String) : TokenList :=
  match firstUnacceptable 0 s.toList with
  | some (c, n) => ⟨[], some (.character c n)⟩
  | none => (Scan.start s).run (s.length + 1)

end NoteVault.Yaml
