import NoteVault.Graph

/-!
The notes around a note: those that it names, those that name it, and so on, up to a number of steps.
-/
namespace NoteVault

structure Neighbourhood where
  root : String
  depth : Nat
  notes : List IndexedNote
  references : List Reference

/-- A number of steps is asked for that is less than none. -/
structure NegativeDepth where
  depth : Int
  deriving DecidableEq, Repr

def NegativeDepth.text (e : NegativeDepth) : String := "depth must be >= 0, got " ++ toString e.depth

namespace VaultGraph

/-- The notes that name an identity. -/
def sourcesOf (g : VaultGraph) (identity : String) : List IndexedNote :=
  (g.referencesTo identity).filterMap fun e => g.index.notes.get? e.source

/-- The notes one step away: first those that the note names, then those that name it. -/
def neighbours (g : VaultGraph) (n : IndexedNote) : List IndexedNote :=
  (g.referencesFrom n.path).filterMap (fun e => g.noteById? e.target) ++
    match n.id with
    | some identity => g.sourcesOf identity
    | none => []

/-- The notes of a list whose paths have not been seen, each once. -/
def unseen (seen : List String) : List IndexedNote → List IndexedNote
  | [] => []
  | n :: rest => if n.path ∈ seen then unseen seen rest else n :: unseen (n.path :: seen) rest

/-- Notes in the order of their discovery: `visited` ones, and what is found from the `last` of them in a
number of steps. -/
def discover (g : VaultGraph) : Nat → List IndexedNote → List IndexedNote → List IndexedNote
  | 0, visited, _ => visited
  | steps + 1, visited, last =>
    match unseen (visited.map (·.path)) (last.flatMap g.neighbours) with
    | [] => visited
    | found => discover g steps (visited ++ found) found

/-- The references between notes. -/
def referencesAmong (g : VaultGraph) (notes : List IndexedNote) : List Reference :=
  let paths := notes.map (·.path)
  g.index.references.filter fun e =>
    paths.contains e.source && ((g.index.ownerOf? e.target).any paths.contains)

/-- The notes up to a number of steps from the owner of an identity, and the references between them;
none around an identity that nobody owns, and no references without a step. -/
def around (g : VaultGraph) (root : String) (depth : Nat) : Neighbourhood :=
  match g.noteById? root, depth with
  | none, _ => ⟨root, depth, [], []⟩
  | some n, 0 => ⟨root, depth, [n], []⟩
  | some n, depth =>
    let notes := g.discover depth [n] [n]
    ⟨root, depth, notes, g.referencesAmong notes⟩

/-- The notes around the owner of an identity. -/
def neighbourhood (g : VaultGraph) (root : String) (depth : Int) : Except NegativeDepth Neighbourhood :=
  if depth < 0 then .error ⟨depth⟩ else .ok (g.around root depth.toNat)

end VaultGraph

end NoteVault
