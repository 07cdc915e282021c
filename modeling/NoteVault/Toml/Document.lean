import NoteVault.Toml.Scalar
import NoteVault.Toml.Table

/-!
Settings files: lines with a header or with a key and its value, blank lines and comments.
-/
namespace NoteVault.Toml

/-- A problem of tables is noticed at these characters. -/
def locate (left : List Char) (r : Except Problem α) : Except Error α :=
  match r with
  | .ok a => .ok a
  | .error p => refuse p left

/-- White space, line breaks and comments. The first argument bounds the number of lines. -/
def skipLines : Nat → List Char → Except Error (List Char)
  | 0, s => .ok s
  | fuel + 1, s =>
    match s.dropWhile isBlankOrBreak with
    | '#' :: rest => do skipLines fuel (← skipComment ('#' :: rest))
    | after => .ok after

def skipAll (s : List Char) : Except Error (List Char) := skipLines (s.length + 1) s

/-- A key, the equals sign and the blanks around it. -/
def keyEquals (s : List Char) : Except Error (Reading Key) := do
  let (k, after) ← key s
  match after with
  | '=' :: rest => return (k, skipBlanks rest)
  | _ => refuse .noEquals after

/-- Two more quotes follow, so that there are three. -/
def hasTwoMore (quote : Char) (s : List Char) : Bool := s.take 2 = [quote, quote]

/-- A text whose opening quote has been read. -/
def textBehind (quote : Char) (rest : List Char) : Except Error (Reading Value) := do
  let multiline := hasTwoMore quote rest
  let (text, after) ← quotedText quote multiline (if multiline then rest.drop 2 else rest)
  return (.str text, after)

mutual

/-- A value. The first argument bounds the nesting and the number of parts. -/
def value : Nat → List Char → Except Error (Reading Value)
  | 0, s => refuse .value s
  | fuel + 1, s =>
    match s with
    | '"' :: rest => textBehind '"' rest
    | '\'' :: rest => textBehind '\'' rest
    | '[' :: rest => do
      let (items, after) ← items fuel (← skipAll rest)
      return (.list items, after)
    | '\x7b' :: rest =>
      match skipBlanks rest with
      | '\x7d' :: after => .ok (.map [], after)
      | rest => entries fuel [] .empty rest
    | 't' :: 'r' :: 'u' :: 'e' :: after => .ok (.bool true, after)
    | 'f' :: 'a' :: 'l' :: 's' :: 'e' :: after => .ok (.bool false, after)
    | s => scalar s

/-- The items of an array up to its bracket. -/
def items : Nat → List Char → Except Error (Reading (List Value))
  | 0, s => refuse .unclosedArray s
  | fuel + 1, s =>
    match s with
    | ']' :: after => .ok ([], after)
    | s => do
      let (v, after) ← value fuel s
      let after ← skipAll after
      match after with
      | ']' :: after => return ([v], after)
      | ',' :: rest =>
        let (vs, after) ← items fuel (← skipAll rest)
        return (v :: vs, after)
      | _ => refuse .unclosedArray after

/-- The entries of an inline table up to its brace. -/
def entries : Nat → Mapping → Marks → List Char → Except Error (Reading Value)
  | 0, _, _, s => refuse .unclosedTable s
  | fuel + 1, m, marks, s => do
    let (k, rest) ← keyEquals s
    let (v, after) ← value fuel rest
    let (m, marks) ← locate after (Draft.assignInline m marks k v)
    match skipBlanks after with
    | '\x7d' :: after => return (.map m, after)
    | ',' :: rest => entries fuel m marks (skipBlanks rest)
    | after => refuse .unclosedTable after

end

/-- A header, which ends with as many brackets as it begins with. -/
def header (d : Draft) (s : List Char) : Except Error (Draft × List Char) :=
  match s with
  | '[' :: '[' :: rest => do
    let (k, after) ← key (skipBlanks rest)
    let d ← locate after (d.openItem k)
    match after with
    | ']' :: ']' :: after => return (d, after)
    | _ => refuse .arrayEnd after
  | _ => do
    let (k, after) ← key (skipBlanks (s.drop 1))
    let d ← locate after (d.openTable k)
    match after with
    | ']' :: after => return (d, after)
    | _ => refuse .tableEnd after

def startsKey (c : Char) : Bool := isBareKey c || c = '"' || c = '\''

/-- What stands on a line in front of a comment. -/
def statement (d : Draft) (s : List Char) : Except Error (Draft × List Char) :=
  match s with
  | '[' :: _ => header d s
  | '#' :: _ => .ok (d, s)
  | c :: _ =>
    if startsKey c then do
      let (k, rest) ← keyEquals s
      let (v, after) ← value (2 * rest.length + 2) rest
      return (← locate after (d.assign k v), after)
    else refuse .statement s
  | [] => .ok (d, [])

/-- The lines of a file. The first argument bounds their number. -/
def lines : Nat → Draft → List Char → Except Error Draft
  | 0, d, _ => .ok d
  | fuel + 1, d, s =>
    match skipBlanks s with
    | [] => .ok d
    | '\n' :: rest => lines fuel d rest
    | s => do
      let (d, after) ← statement d s
      let after ← skipComment (skipBlanks after)
      match after with
      | [] => return d
      | '\n' :: rest => lines fuel d rest
      | _ => refuse .afterStatement after

/-- Carriage returns in front of line feeds are dropped. -/
def unifyBreaks : List Char → List Char
  | '\r' :: '\n' :: rest => '\n' :: unifyBreaks rest
  | c :: rest => c :: unifyBreaks rest
  | [] => []

/-- Why a text is no settings file, with the place in the wording of faults. -/
inductive ReadError where
  | fault (text : String)
  | longInteger (digits : Nat)
  deriving DecidableEq, Repr

/-- The table that a settings file stands for. -/
def read (text : List Char) : Except ReadError Mapping :=
  let source := unifyBreaks text
  match lines (source.length + 1) .empty source with
  | .ok d => .ok d.tables
  | .error (.fault f) => .error (.fault (f.text source))
  | .error (.longInteger n) => .error (.longInteger n)

example : (read "a.b = [1, 'x']\n[[t]]\nc = true".toList).toOption =
    some [("a", .map [("b", .list [.int 1, .str "x"])]), ("t", .list [.map [("c", .bool true)]])] := by
  decide +kernel

example : (read "[a]\n[a]".toList).toOption = none := by decide +kernel

end NoteVault.Toml
