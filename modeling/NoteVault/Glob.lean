import NoteVault.Glob.Atom
import NoteVault.Text.Blank
import NoteVault.Text.Quoted

/-!
Patterns of file names, as they stand in lists of ignored files. Later patterns win over earlier ones, a
pattern with a `!` in front takes files back in, and a pattern without a slash inside applies at any depth.
-/
namespace NoteVault

/-- Why a pattern has no meaning. -/
inductive GlobError where
  /-- Nothing is left to match, or a backslash stands at the end of a name. -/
  | invalid (pattern : String)
  /-- A range in brackets runs backwards. -/
  | reversedRange
  deriving DecidableEq, Repr

/-- The wording of an error; a reversed range has none. -/
def GlobError.text? : GlobError → Option String
  | invalid p => some ("Invalid git pattern: " ++ Text.quoted p)
  | reversedRange => none

/-- A pattern: what it does with the files that it covers, and its parts. -/
structure Glob where
  excludes : Bool
  atoms : List Glob.Atom
  deriving DecidableEq, Repr

namespace Glob

/-- The characters up to the first closing bracket, and what follows the bracket. -/
def upToBracket? (s : List Char) : Option (List Char × List Char) :=
  match s.dropWhile (· ≠ ']') with
  | _ :: after => some (s.takeWhile (· ≠ ']'), after)
  | [] => none

/-- The characters of a bracket expression, the first of which may be a closing bracket, and what follows. -/
def closed? : List Char → Option (List Char × List Char)
  | ']' :: rest => (upToBracket? rest).map fun (body, after) => (']' :: body, after)
  | s => upToBracket? s

/-- The parts of a bracket expression behind its opening bracket: a `!` or `^`, and its characters. -/
def bracket? : List Char → Option (Bool × List Char × List Char)
  | '!' :: rest | '^' :: rest => (closed? rest).map (true, ·)
  | s => (closed? s).map (false, ·)

/-- The ranges of a bracket expression; a hyphen between two characters makes a range. -/
def ranges : List Char → List (Char × Char)
  | low :: '-' :: high :: rest => (low, high) :: ranges rest
  | c :: rest => (c, c) :: ranges rest
  | [] => []

/-- The parts of one name of a pattern. The first argument bounds the number of characters. -/
def nameAtoms (pattern : String) : Nat → List Char → Except GlobError (List Atom)
  | 0, _ => .ok []
  | fuel + 1, s =>
    match s with
    | [] => .ok []
    | ['\\'] => .error (.invalid pattern)
    | '\\' :: c :: rest => (nameAtoms pattern fuel rest).map (.char c :: ·)
    | '*' :: rest => (nameAtoms pattern fuel rest).map (.any :: ·)
    | '?' :: rest => (nameAtoms pattern fuel rest).map (.one :: ·)
    | '[' :: rest =>
      match bracket? rest with
      | none => (nameAtoms pattern fuel rest).map (.char '[' :: ·)
      | some (negated, body, after) => (nameAtoms pattern fuel after).map (.set ⟨negated, ranges body⟩ :: ·)
    | c :: rest => (nameAtoms pattern fuel rest).map (.char c :: ·)

/-- A name that stands for any number of folders. -/
def isDeep (name : List Char) : Bool := name = ['*', '*']

/-- Deep names in a row count once. -/
def collapse : List (List Char) → List (List Char)
  | a :: b :: rest => if isDeep a && isDeep b then collapse (b :: rest) else a :: collapse (b :: rest)
  | names => names

/-- The names of a pattern, made relative to the top: a slash in front is dropped, and a single name
applies at any depth. -/
def anchored (names : List (List Char)) : List (List Char) :=
  match names with
  | [] :: rest => rest
  | [name] | [name, []] => if isDeep name then names else ['*', '*'] :: names
  | _ => names

/-- A slash at the end stands for everything below. -/
def deepEnd (names : List (List Char)) : List (List Char) :=
  if 1 < names.length ∧ names.getLast? = some [] then names.dropLast ++ [['*', '*']] else names

/-- The parts of one name, of which a lone asterisk stands for any name that is not empty. -/
def ownAtoms (pattern : String) (name : List Char) : Except GlobError (List Atom) :=
  if name = ['*'] then .ok [.one, .any] else nameAtoms pattern (name.length + 1) name

/-- The parts of names behind the first one. -/
def laterAtoms (pattern : String) (afterSlash : Bool) : List (List Char) → Except GlobError (List Atom)
  | [] => .ok []
  | name :: rest =>
    if isDeep name then
      if rest.isEmpty then .ok [.below]
      else (laterAtoms pattern false rest).map (.between :: ·)
    else do
      let slash := if afterSlash then [] else [.char '/']
      let own ← ownAtoms pattern name
      let last := if rest.isEmpty then [.belowOrHere] else []
      let others ← laterAtoms pattern false rest
      return slash ++ own ++ last ++ others

/-- The parts of the names of a pattern. -/
def atomsOf (pattern : String) (names : List (List Char)) : Except GlobError (List Atom) :=
  match names with
  | [] => .error (.invalid pattern)
  | [name] => if isDeep name then .ok [.one, .any, .belowOrHere] else laterAtoms pattern true names
  | name :: rest =>
    if isDeep name then (laterAtoms pattern true rest).map (.above :: ·) else laterAtoms pattern true names

/-- A pattern ends with a backslash and a blank, which then belongs to it. -/
def endsInBlank (s : List Char) : Bool := [' ', '\\'].isPrefixOf s.reverse

/-- White space around a pattern does not belong to it. -/
def trimmed (pattern : String) : List Char :=
  let s := pattern.toList
  if endsInBlank s then s.dropWhile Text.isBlank else Text.trimBy Text.isBlank s

/-- Ranges are looked at when all names of a pattern have been read. -/
def ordered (atoms : List Atom) : Except GlobError (List Atom) :=
  if atoms.all Atom.isOrdered then .ok atoms else .error .reversedRange

/-- The parts of a pattern without its `!`. -/
def bodyAtoms (pattern : String) (body : List Char) : Except GlobError (List Atom) :=
  let names := collapse (body.splitOn '/')
  if names = [['*', '*'], []] then .ok [.inside]
  else do ordered (← atomsOf pattern (deepEnd (anchored names)))

/-- Reads a pattern; comments, blank lines and a lone slash are none. -/
def ofText? (pattern : String) : Except GlobError (Option Glob) :=
  match trimmed pattern with
  | [] | '#' :: _ | ['/'] => .ok none
  | '!' :: body => (bodyAtoms pattern body).map fun atoms => some ⟨false, atoms⟩
  | body => (bodyAtoms pattern body).map fun atoms => some ⟨true, atoms⟩

/-- A path without a slash, or a dot and a slash, in front. -/
def relative : List Char → List Char
  | '/' :: rest => rest
  | '.' :: '/' :: rest => rest
  | s => s

/-- The last pattern that covers a path says whether it is excluded. -/
def anyExcludes (globs : List Glob) (path : List Char) : Bool :=
  globs.foldl (fun out g => if covers g.atoms (relative path) then g.excludes else out) false

/-- The patterns of some lines. -/
def ofLines (patterns : List String) : Except GlobError (List Glob) := do
  return (← patterns.mapM ofText?).filterMap id

/-- Whether patterns exclude a path; any pattern without a meaning is an error. -/
def exclude (patterns : List String) (path : String) : Except GlobError Bool := do
  return anyExcludes (← ofLines patterns) path.toList

example : (exclude ["*.md", "!a/**"] "a/b.md").toOption = some false := by decide +kernel

example : (exclude ["b"] "a/b/c.md").toOption = some true ∧ (exclude ["/b"] "a/b/c.md").toOption = some false := by
  decide +kernel

end Glob

end NoteVault
