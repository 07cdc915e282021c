import NoteVault.Index

/-!
Questions about the notes of an index and the references between them. References by their target are
collected once.
-/
namespace NoteVault

structure VaultGraph where
  index : VaultIndex
  incoming : Dictionary (List Reference)

namespace VaultGraph

/-- References by their targets. -/
def byTarget (references : List Reference) : Dictionary (List Reference) :=
  references.foldl (fun d e => d.push e.target e) []

def ofIndex (i : VaultIndex) : VaultGraph := ⟨i, byTarget i.references⟩

def notes (g : VaultGraph) : List IndexedNote := g.index.notes.values

/-- The notes of a type, or those without one. -/
def notesOfType (g : VaultGraph) (type : Option String) : List IndexedNote := g.notes.filter (·.type = type)

/-- The note that owns an identity. -/
def noteById? (g : VaultGraph) (identity : String) : Option IndexedNote :=
  (g.index.ownerOf? identity).bind g.index.notes.get?

/-- The references that a note makes. -/
def referencesFrom (g : VaultGraph) (path : String) : List Reference := g.index.references.filter (·.source = path)

/-- The references that name an identity. -/
def referencesTo (g : VaultGraph) (identity : String) : List Reference := (g.incoming.get? identity).getD []

end VaultGraph

end NoteVault
