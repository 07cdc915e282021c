import NoteVault.Index
import NoteVault.Scaffold

/-!
A vault in the course of its editing: contents by path, in the order in which the paths were first written.
A path keeps its place until its note is removed; an edit that fails changes nothing.
-/
namespace NoteVault

abbrev Vault := Dictionary String

namespace Vault

/-- Writes a note. -/
def write (v : Vault) (path content : String) : Vault := v.put path content

/-- Removes a note; its content was the first result. -/
def remove (v : Vault) (path : String) : Option String × Vault := (v.get? path, v.erase path)

/-- Changes the note at a path, if there is one. -/
def revise (v : Vault) (path : String) (change : String → Except ε Revision) :
    Except ε (Option Revision × Vault) :=
  match v.get? path with
  | none => .ok (none, v)
  | some content => (change content).map fun revision => (some revision, v.put path revision.content)

/-- Repairs the note at a path. -/
def repair (v : Vault) (path : String) (p : RepairPlan) (r : Registry) (config : Config) :
    Except NoteError (Option Revision × Vault) := revise v path (Note.repair p r config)

/-- Changes the type of the note at a path. -/
def migrate (v : Vault) (path : String) (r : Registry) (source target : String) :
    Except NoteError (Option Revision × Vault) := revise v path (Note.migrate r source target)

/-- Makes a new note at a path. -/
def scaffold (v : Vault) (path : String) (r : Registry) (type : String) (overrides : Mapping) :
    Except ScaffoldError (String × Vault) :=
  (r.scaffold type overrides).map fun content => (content, v.put path content)

/-- The index of the notes as they are. -/
def index (v : Vault) (r : Registry) (config : Config) : Except NoteError VaultIndex :=
  VaultIndex.build r config v

end Vault

end NoteVault
