import NoteVault.Index.IndexedNote
import NoteVault.Report

/-!
The index of a vault: its notes by path, the owners of identities, the references between notes, and
counts. Of several notes with one identity the last one owns it.
-/
namespace NoteVault

structure VaultIndex where
  notes : Dictionary IndexedNote
  owners : Dictionary String
  references : List Reference
  stats : VaultStats

namespace VaultStats

def empty : VaultStats := ⟨0, 0, 0, 0⟩

/-- Counts one more note. -/
def count (s : VaultStats) (n : IndexedNote) : VaultStats :=
  ⟨s.total + 1, s.valid + (if n.isValid then 1 else 0), s.errors + n.errors, s.warnings + n.warnings⟩

end VaultStats

namespace VaultIndex

def empty : VaultIndex := ⟨[], [], [], .empty⟩

/-- Enters a note and its references. -/
def add (i : VaultIndex) (n : IndexedNote) (references : List Reference) : VaultIndex where
  notes := i.notes.put n.path n
  owners := match n.id with
    | some identity => i.owners.put identity n.path
    | none => i.owners
  references := i.references ++ references
  stats := i.stats.count n

/-- The index of notes that have been read. -/
def ofNotes (notes : List (IndexedNote × List Reference)) : VaultIndex :=
  notes.foldl (fun i (n, references) => i.add n references) empty

/-- Reads a note for the index; all its issues must have a wording. -/
def readNote (r : Registry) (config : Config) (file : String × String) :
    Except NoteError (IndexedNote × List Reference) := do
  let note ← (Note.parse file.2).mapError .read
  if note.data.any (r.isLongAt config) then throw (.write .longInteger)
  return IndexedNote.ofNote r config file.1 note

/-- The index of the notes of a vault, given by path and content. -/
def build (r : Registry) (config : Config) (files : List (String × String)) : Except NoteError VaultIndex :=
  (files.mapM (readNote r config)).map ofNotes

/-- Issues by note, for the notes that have any. -/
def issuesByNote (i : VaultIndex) : List (String × List Issue) :=
  (i.notes.filter fun (_, n) => !n.issues.isEmpty).map fun (path, n) => (path, n.issues)

/-- The note that owns an identity. -/
def ownerOf? (i : VaultIndex) (identity : String) : Option String := i.owners.get? identity

/-- The reference leads to a note. -/
def resolves (i : VaultIndex) (e : Reference) : Bool := i.owners.has e.target

end VaultIndex

end NoteVault
