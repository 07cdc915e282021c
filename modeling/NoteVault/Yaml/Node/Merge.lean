import NoteVault.Yaml.Node.Scalar

/-!
Merge keys. The entries of a mapping under `<<`, or of the mappings in a list there, come before the
entries of the mapping itself, those of a later list item first.
-/
namespace NoteVault.Yaml.Node

/-- A key that merges another mapping. -/
def isMergeKey (key : Node) : Bool := key.head.tag = .merge

mutual

/-- The entries of a node that stands for a mapping, merged ones first. -/
def flatEntries : Node → Except Error (List (Node × Node))
  | mapping head entries => do
    let merged ← mergedEntries head.mark entries
    return merged ++ entries.filter fun (key, _) => !key.isMergeKey
  | sequence _ items => if items.isEmpty then .ok [] else .error (.value .sequencePair)
  | scalar _ text => if text.isEmpty then .ok [] else .error (.value .scalarPair)

/-- The entries that merge keys bring in; `mark` is the place of the mapping that holds them. -/
def mergedEntries (mark : Mark) : List (Node × Node) → Except Error (List (Node × Node))
  | [] => .ok []
  | (key, value) :: rest =>
    if key.isMergeKey then do
      let first ← mergedFrom mark value
      let more ← mergedEntries mark rest
      return first ++ more
    else mergedEntries mark rest

/-- The entries that one merge key brings in. -/
def mergedFrom (mark : Mark) : Node → Except Error (List (Node × Node))
  | mapping head entries => do
    let merged ← mergedEntries head.mark entries
    return merged ++ entries.filter fun (key, _) => !key.isMergeKey
  | sequence _ items => do
    let parts ← mergedItems mark items
    return parts.reverse.flatten
  | scalar head _ =>
    .error (.fault ⟨some (.mapping, some mark), .notMergeable .scalar, head.mark⟩)

/-- The entries of each mapping in a list under a merge key. -/
def mergedItems (mark : Mark) : List Node → Except Error (List (List (Node × Node)))
  | [] => .ok []
  | mapping head entries :: rest => do
    let merged ← mergedEntries head.mark entries
    let more ← mergedItems mark rest
    return (merged ++ entries.filter fun (key, _) => !key.isMergeKey) :: more
  | item :: _ =>
    .error (.fault ⟨some (.mapping, some mark), .notMergeableItem item.kind, item.head.mark⟩)

end

end NoteVault.Yaml.Node
