import NoteVault.Config
import NoteVault.Folder
import NoteVault.Glob
import NoteVault.Text.Utf8

/-!
The notes of a vault's folder: files that end in `.md`, outside of hidden folders, in the order of their
paths. Files that settings exclude, or whose octets are no text, are left out and recorded.
-/
namespace NoteVault

namespace FilePath

/-- At most, name by name in the order of code points; a path comes before what lies below it. -/
def le : FilePath → FilePath → Bool
  | [], _ => true
  | _ :: _, [] => false
  | a :: as, b :: bs => a < b || (a = b && le as bs)

/-- A file with a note's name, none of whose folders is hidden. -/
def isNote (p : FilePath) : Bool :=
  (p.getLastD "").endsWith ".md" && p.dropLast.all (!·.startsWith ".")

end FilePath

/-- A file that has been left out. -/
inductive Omission where
  | excluded (path : String)
  | noText (path : String) (reason : Utf8.Reason)
  deriving DecidableEq, Repr

/-- How much an omission matters. -/
def Omission.level : Omission → String
  | excluded _ => "DEBUG"
  | noText .. => "WARNING"

def Omission.text : Omission → String
  | excluded path => "Excluded " ++ path
  | noText path reason => "Skipping " ++ path ++ ": not valid UTF-8 (" ++ reason.text ++ ")"

/-- Line breaks of all kinds become line feeds. -/
def lineFeeds : List Char → List Char
  | '\r' :: '\n' :: rest => '\n' :: lineFeeds rest
  | '\r' :: rest => '\n' :: lineFeeds rest
  | c :: rest => c :: lineFeeds rest
  | [] => []

/-- Whether settings exclude a path. -/
def Config.excludes (c : Config) (path : String) : Except GlobError Bool := Glob.exclude c.excludeGlobs path

namespace Folder

/-- The files that are notes, in the order of their paths. -/
def noteFiles (f : Folder) : List (FilePath × List UInt8) :=
  (f.files.filter fun (p, _) => p.isNote).mergeSort fun a b => a.1.le b.1

/-- The path and the text of a note, or why it is left out. -/
def noteOf (config : Config) (file : FilePath × List UInt8) : Except GlobError (Omission ⊕ (String × String)) := do
  let path := file.1.text
  if ← config.excludes path then return .inl (.excluded path)
  match Utf8.decode file.2 with
  | .ok text => return .inr (path, String.ofList (lineFeeds text))
  | .error fault => return .inl (.noText path fault.reason)

/-- Paths and texts of the notes of a folder, and what has been left out. -/
def notes (f : Folder) (config : Config) : Except GlobError (List (String × String) × List Omission) := do
  let all ← f.noteFiles.mapM (noteOf config)
  return (all.filterMap Sum.getRight?, all.filterMap Sum.getLeft?)

end Folder

end NoteVault
