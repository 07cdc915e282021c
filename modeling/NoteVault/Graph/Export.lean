import NoteVault.Graph
import NoteVault.Text.Order

/-!
The references as a graph for other tools. Notes are keyed by their paths; an identity that nobody owns is
a vertex of its own, and parallel references are numbered.
-/
namespace NoteVault

structure Vertex where
  key : String
  id : Option String
  type : Option String
  title : Option String
  isValid : Bool
  missing : Bool
  deriving DecidableEq, Repr

/-- A reference between two vertices, with its number among those between the same two. -/
structure Arc where
  source : String
  target : String
  number : Nat
  field : String
  deriving DecidableEq, Repr

structure ExportGraph where
  vertices : List Vertex
  arcs : List Arc

namespace VaultGraph

def vertexOf (n : IndexedNote) : Vertex := ⟨n.path, n.id, n.type, n.title, n.isValid, false⟩

/-- The key of the vertex at which a reference ends. -/
def endOf (i : VaultIndex) (e : Reference) : String := (i.ownerOf? e.target).getD e.target

/-- Adds the vertex of an identity that nobody owns, unless a vertex has that key. -/
def addMissing (i : VaultIndex) (vertices : List Vertex) (e : Reference) : List Vertex :=
  if i.resolves e || vertices.any (·.key = e.target) then vertices
  else vertices ++ [⟨e.target, some e.target, none, none, false, true⟩]

/-- The references between two vertices, numbered. -/
def parallelArcs (i : VaultIndex) (source target : String) : List Arc :=
  (i.references.filter fun e => e.source = source && endOf i e = target).mapIdx fun n e =>
    ⟨source, target, n, e.field⟩

/-- The references of a vertex: targets in the order of their first occurrence. -/
def arcsFrom (i : VaultIndex) (source : String) : List Arc :=
  (Text.firstOccurrences ((i.references.filter (·.source = source)).map (endOf i))).flatMap (parallelArcs i source)

/-- Notes first, then identities that nobody owns; references by their sources. -/
def exported (g : VaultGraph) : ExportGraph :=
  let vertices := g.index.references.foldl (addMissing g.index) (g.notes.map vertexOf)
  ⟨vertices, vertices.flatMap fun v => arcsFrom g.index v.key⟩

end VaultGraph

end NoteVault
