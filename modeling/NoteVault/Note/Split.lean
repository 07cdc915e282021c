/-!
The two parts of a note. The first line and a later one consist of three dashes and blanks; between
them stands the header, and behind the dashes and blanks of the later line the body.
-/
namespace NoteVault.Note

def isGap (c : Char) : Bool := c = ' ' || c = '\t'

/-- What follows the opening line. -/
def opening? (s : List Char) : Option (List Char) :=
  match s with
  | '-' :: '-' :: '-' :: rest =>
    match rest.dropWhile isGap with
    | '\n' :: after => some after
    | '\r' :: '\n' :: after => some after
    | _ => none
  | _ => none

/-- The end of the text, or of a line with or without a carriage return. -/
def atLineEnd : List Char → Bool
  | [] => true
  | ['\r'] => true
  | '\n' :: _ => true
  | '\r' :: '\n' :: _ => true
  | _ => false

/-- What follows the dashes and blanks of a closing line. -/
def closing? (s : List Char) : Option (List Char) :=
  match s with
  | '-' :: '-' :: '-' :: rest =>
    let after := rest.dropWhile isGap
    if atLineEnd after then some after else none
  | _ => none

/-- Header and body behind the opening line: the first closing line parts them. -/
def splitLines (atLineStart : Bool) (s : List Char) : Option (List Char × List Char) :=
  match if atLineStart then closing? s else none with
  | some body => some ([], body)
  | none =>
    match s with
    | [] => none
    | c :: rest => (splitLines (c = '\n') rest).map fun (header, body) => (c :: header, body)

/-- Header and body of a note. -/
def split (content : String) : Option (String × String) := do
  let rest ← opening? content.toList
  let (header, body) ← splitLines true rest
  return (String.ofList header, String.ofList body)

/-- A note of a header, which may be empty, and a body. -/
def assemble (header body : String) : String :=
  if header = "" then "---\n---" ++ body else "---\n" ++ header ++ "\n---" ++ body

example : split "---\na: 1\n--- \r\nb" = some ("a: 1\n", "\r\nb") := by decide +kernel

example : split "---\na: 1\n---x" = none ∧ split "a\n---\n---" = none := by decide +kernel

end NoteVault.Note
