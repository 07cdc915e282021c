import NoteVault.Text.Blank
import NoteVault.Yaml.Content

/-!
Contents in block style. Every collection is indented by two columns below the one that holds it, and
only empty ones are written in brackets.
-/
namespace NoteVault.Yaml.Content

open Form (spaces)

/-- An anchor's name: a number of three digits or more. -/
def anchorName (n : Nat) : List Char :=
  let ds := Nat.toDigits 10 n
  "id".toList ++ List.replicate (3 - ds.length) '0' ++ ds

/-- An anchor in front of a node. -/
def anchorText : Option Nat → List Char
  | none => []
  | some n => " &".toList ++ anchorName n

/-- A key stands before its colon when it is one short line. -/
def isSimpleKey (key : List Char) : Bool :=
  !key.isEmpty && !Form.hasBreak key && key.length + 5 < 128

/-- Entries of a collection: on lines of their own, or the first one on the line of its sign. -/
def place (indent : Nat) (sameLine : Bool) (entries : List (List Char)) : List Char :=
  match entries with
  | [] => []
  | first :: rest =>
    (if sameLine then [' '] else '\n' :: spaces indent) ++ first ++
      rest.flatMap fun e => '\n' :: spaces indent ++ e

mutual

/-- A content behind a sign: a dash, a question mark or a colon. In a collection whose column is `indent`
the sign may share its line with the first entry, as `sameLine` says. -/
def write (indent : Nat) (sameLine : Bool) : Content → List Char
  | aliasOf n => " *".toList ++ anchorName n
  | scalar anchor tag wish text =>
    anchorText anchor ++ ' ' :: Form.scalar (indent + 2) false tag wish text
  | sequence anchor items =>
    anchorText anchor ++
      if items.isEmpty then " []".toList
      else place (indent + 2) (sameLine && anchor.isNone) (writeItems (indent + 2) items)
  | mapping anchor tag entries =>
    let tagged := if tag = .map then [] else ' ' :: Form.tagText tag
    anchorText anchor ++ tagged ++
      if entries.isEmpty then " \x7b\x7d".toList
      else place (indent + 2) (sameLine && anchor.isNone && tagged.isEmpty) (writeEntries (indent + 2) entries)

/-- The entries of a sequence. -/
def writeItems (indent : Nat) : List Content → List (List Char)
  | [] => []
  | c :: rest => ('-' :: write indent true c) :: writeItems indent rest

/-- The entries of a mapping; a key that is not simple stands behind a question mark. -/
def writeEntries (indent : Nat) : List (String × Content) → List (List Char)
  | [] => []
  | (k, c) :: rest =>
    let key := fun asKey => Form.scalar (indent + 2) asKey .str (wishOf k) k.toList
    let entry :=
      if isSimpleKey k.toList then key true ++ ':' :: write indent false c
      else "? ".toList ++ key false ++ '\n' :: spaces indent ++ ':' :: write indent true c
    entry :: writeEntries indent rest

end

/-- The lines of a mapping that is not inside anything. -/
def writeAll (entries : List (String × Content)) : List Char :=
  match writeEntries 0 entries with
  | [] => []
  | first :: rest => first ++ rest.flatMap ('\n' :: ·)

end NoteVault.Yaml.Content
