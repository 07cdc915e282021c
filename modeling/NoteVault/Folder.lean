import NoteVault.Text.Quoted

/-!
A folder of files, which may stand in folders of their own. A path is the list of names that lead to a
file or a folder.
-/
namespace NoteVault

abbrev FilePath := List String

/-- Files with their octets in the order in which they were first written, and folders. -/
structure Folder where
  files : List (FilePath × List UInt8)
  folders : List FilePath

/-- Why a file cannot be read. -/
inductive ReadError where
  | missing
  | noFolder
  | isFolder
  deriving DecidableEq, Repr

def ReadError.number : ReadError → Nat
  | missing => 2
  | noFolder => 20
  | isFolder => 21

def ReadError.reason : ReadError → String
  | missing => "No such file or directory"
  | noFolder => "Not a directory"
  | isFolder => "Is a directory"

/-- The wording of an error at a place. -/
def ReadError.text (e : ReadError) (place : String) : String :=
  "[Errno " ++ toString e.number ++ "] " ++ e.reason ++ ": " ++ Text.quoted place

namespace FilePath

/-- The names of a path that is written with slashes; a dot stands for no name. -/
def ofText (s : String) : FilePath :=
  ((s.toList.splitOn '/').map String.ofList).filter fun name => name ≠ "" && name ≠ "."

/-- The path with slashes. -/
def text (p : FilePath) : String := "/".intercalate p

/-- A name without its last dot and what follows; a dot at either end does not count. -/
def withoutSuffix (name : List Char) : List Char :=
  let suffix := name.reverse.takeWhile (· ≠ '.')
  let stem := name.take (name.length - suffix.length - 1)
  if suffix.length < name.length && !suffix.isEmpty && !stem.isEmpty then stem else name

/-- The last name without its suffix. -/
def stem (p : FilePath) : String := String.ofList (withoutSuffix (p.getLastD "").toList)

example : stem ["a", "b.c.md"] = "b.c" ∧ stem [".md"] = ".md" ∧ stem ["a."] = "a." := by decide +kernel

end FilePath

namespace Folder

def empty : Folder := ⟨[], []⟩

/-- Replaces the content of a file, or adds the file. -/
def putFile (path : FilePath) (octets : List UInt8) : List (FilePath × List UInt8) → List (FilePath × List UInt8)
  | [] => [(path, octets)]
  | (p, old) :: rest => if p = path then (p, octets) :: rest else (p, old) :: putFile path octets rest

def write (f : Folder) (path : FilePath) (octets : List UInt8) : Folder :=
  { f with files := putFile path octets f.files }

def makeFolder (f : Folder) (path : FilePath) : Folder := { f with folders := f.folders ++ [path] }

def octets? (f : Folder) (path : FilePath) : Option (List UInt8) := f.files.lookup path

/-- The path leads to a folder: to one that was made, or to one around a file or a folder. -/
def isFolder (f : Folder) (path : FilePath) : Bool :=
  path.isEmpty || f.folders.any (path.isPrefixOf ·) || f.files.any fun (p, _) => path.isPrefixOf p && p ≠ path

def isFile (f : Folder) (path : FilePath) : Bool := (f.octets? path).isSome

/-- The path without steps to a parent folder, from a path that has none. -/
def resolve (f : Folder) (path : FilePath) : FilePath → Except ReadError FilePath
  | [] => .ok path
  | name :: rest =>
    if f.isFile path then .error .noFolder
    else if f.isFolder path then resolve f (if name = ".." then path.dropLast else path ++ [name]) rest
    else .error .missing

/-- The octets of the file that a path leads to. -/
def read (f : Folder) (path : FilePath) : Except ReadError (List UInt8) := do
  let path ← f.resolve [] path
  match f.octets? path with
  | some octets => .ok octets
  | none => .error (if f.isFolder path then .isFolder else .missing)

example : (empty.write ["d", "x"] []).read ["d", "x", "y"] = .error .noFolder := rfl

end Folder

end NoteVault
