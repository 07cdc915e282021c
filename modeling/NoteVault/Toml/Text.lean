import NoteVault.Toml.Fault

/-!
The small parts of a settings file: blanks, comments, quoted texts and keys.
-/
namespace NoteVault.Toml

def isBlank (c : Char) : Bool := c = ' ' || c = '\t'

def isBlankOrBreak (c : Char) : Bool := isBlank c || c = '\n'

/-- Control characters other than the tab may not stand in texts and comments. -/
def isIllegal (c : Char) : Bool := (c.toNat < 32 && c ≠ '\t') || c.toNat = 127

/-- Texts between three quotes may hold line breaks as well. -/
def isIllegalIn (multiline : Bool) (c : Char) : Bool := isIllegal c && !(multiline && c = '\n')

def isBareKey (c : Char) : Bool := c.isAlphanum || c = '-' || c = '_'

def skipBlanks (s : List Char) : List Char := s.dropWhile isBlank

/-- The first illegal character among those in front, if there is one. -/
def refuseIllegal (illegal : Char → Bool) (body s : List Char) : Except Error Unit :=
  match body.find? illegal with
  | some c => refuse (.misplaced c) (s.dropWhile (!illegal ·))
  | none => .ok ()

/-- What follows a comment; the end of the line is left. -/
def skipComment : List Char → Except Error (List Char)
  | '#' :: rest => do
    refuseIllegal isIllegal (rest.takeWhile (· ≠ '\n')) rest
    return rest.dropWhile (· ≠ '\n')
  | s => .ok s

/-- Everything up to a run of quotes, and what follows the run. -/
def upTo (quotes : List Char) : List Char → Option (List Char × List Char)
  | [] => none
  | c :: rest =>
    if quotes.isPrefixOf (c :: rest) then some ([], (c :: rest).drop quotes.length)
    else (upTo quotes rest).map fun (body, after) => (c :: body, after)

/-- A text that stands as it is up to the closing quotes. -/
def literalText (quotes : List Char) (multiline : Bool) (s : List Char) : Except Error (Reading String) :=
  match upTo quotes s with
  | none => refuse (.noClosing (String.ofList quotes)) []
  | some (body, after) => do
    refuseIllegal (isIllegalIn multiline) body s
    return (String.ofList body, after)

/-- Letters that stand for a character behind a backslash. -/
def escapeLetters : List (Char × Char) :=
  [('b', '\x08'), ('t', '\t'), ('n', '\n'), ('f', '\x0c'), ('r', '\r'), ('"', '"'), ('\\', '\\')]

def hexDigitValue? (c : Char) : Option Nat :=
  if c.isDigit then some (c.toNat - 48)
  else if 'a' ≤ c ∧ c ≤ 'f' then some (c.toNat - 87)
  else if 'A' ≤ c ∧ c ≤ 'F' then some (c.toNat - 55)
  else none

/-- A character by a number of hexadecimal digits. -/
def hexChar (width : Nat) (s : List Char) : Except Error (Reading (List Char)) :=
  let digits := s.take width
  match digits.mapM hexDigitValue? with
  | none => refuse .hexadecimal s
  | some ds =>
    if ds.length < width then refuse .hexadecimal s else
      let n := ds.foldl (fun n d => 16 * n + d) 0
      if n.isValidChar then .ok ([Char.ofNat n], s.drop width) else refuse .codePoint (s.drop width)

/-- What a backslash and the characters behind it stand for. Between three quotes a backslash at the end of
a line takes away all white space that follows. -/
def escape (multiline : Bool) (s : List Char) : Except Error (Reading (List Char)) :=
  match s with
  | [] => refuse .escape []
  | c :: rest =>
    if multiline && c = '\n' then .ok ([], rest.dropWhile isBlankOrBreak)
    else if multiline && isBlank c then
      match skipBlanks rest with
      | [] => .ok ([], [])
      | '\n' :: after => .ok ([], after.dropWhile isBlankOrBreak)
      | after => refuse .escape after
    else if c = 'u' then hexChar 4 rest
    else if c = 'U' then hexChar 8 rest
    else match escapeLetters.lookup c with
      | some d => .ok ([d], rest)
      | none => refuse .escape rest

/-- A text with escapes up to its closing quotes. The first argument bounds the number of characters. -/
def basicText (multiline : Bool) : Nat → List Char → Except Error (Reading (List Char))
  | 0, s => refuse .unterminated s
  | fuel + 1, s =>
    match s with
    | [] => refuse .unterminated []
    | '"' :: rest =>
      if multiline then
        match rest with
        | '"' :: '"' :: after => .ok ([], after)
        | _ => do
          let (text, after) ← basicText multiline fuel rest
          return ('"' :: text, after)
      else .ok ([], rest)
    | '\\' :: rest => do
      let (cs, rest) ← escape multiline rest
      let (text, after) ← basicText multiline fuel rest
      return (cs ++ text, after)
    | c :: rest =>
      if isIllegalIn multiline c then refuse (.illegal c) (c :: rest) else do
        let (text, after) ← basicText multiline fuel rest
        return (c :: text, after)

/-- Up to two quotes that directly follow closing quotes belong to the text. -/
def extraQuotes (quote : Char) (s : List Char) : List Char × List Char :=
  let extra := (s.take 2).takeWhile (· = quote)
  (extra, s.drop extra.length)

/-- A line break that follows opening quotes does not belong to the text. -/
def dropBreak : List Char → List Char
  | '\n' :: rest => rest
  | s => s

/-- A text between quotes of the given kind, three or one of them. -/
def quotedText (quote : Char) (multiline : Bool) (s : List Char) : Except Error (Reading String) := do
  if multiline then
    let s := dropBreak s
    let (text, after) ←
      if quote = '"' then basicText true (s.length + 1) s
      else (literalText [quote, quote, quote] true s).map fun (text, after) => (text.toList, after)
    let (extra, after) := extraQuotes quote after
    return (String.ofList (text ++ extra), after)
  else if quote = '"' then
    let (text, after) ← basicText false (s.length + 1) s
    return (String.ofList text, after)
  else literalText [quote] false s

/-- One name of a key. -/
def keyPart (s : List Char) : Except Error (Reading String) :=
  match s with
  | '"' :: rest => quotedText '"' false rest
  | '\'' :: rest => quotedText '\'' false rest
  | s =>
    let name := s.takeWhile isBareKey
    if name.isEmpty then refuse .keyStart s else .ok (String.ofList name, s.dropWhile isBareKey)

/-- The names of a key behind its first one. The first argument bounds their number. -/
def keyRest : Nat → List Char → Except Error (Reading Key)
  | 0, s => .ok ([], s)
  | fuel + 1, s =>
    match skipBlanks s with
    | '.' :: rest => do
      let (name, after) ← keyPart (skipBlanks rest)
      let (names, after) ← keyRest fuel after
      return (name :: names, after)
    | after => .ok ([], after)

/-- A key and the blanks behind it. -/
def key (s : List Char) : Except Error (Reading Key) := do
  let (name, after) ← keyPart s
  let (names, after) ← keyRest (after.length + 1) after
  return (name :: names, after)

example : (key "a . 'b c'.\"\\u00e9\" =".toList).toOption = some (["a", "b c", "é"], ['=']) := by
  decide +kernel

end NoteVault.Toml
