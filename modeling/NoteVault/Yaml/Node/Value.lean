import NoteVault.Dictionary
import NoteVault.Value.Digits
import NoteVault.Value.Display
import NoteVault.Yaml.Node.Merge

/-!
What a document stands for. A scalar key of a mapping is its text, any other key is the text of its
value. Collections are met before their content is read, level by level; faults are reported in that
order, and a key that refers to a collection whose content has not been read shows it empty.
-/
namespace NoteVault.Yaml.Node

def index (n : Node) : Nat := n.head.mark.index

mutual

/-- Levels of nodes, at least one. -/
def depth : Node → Nat
  | scalar .. => 1
  | sequence _ items => depthOfItems items + 1
  | mapping _ entries => depthOfEntries entries + 1

def depthOfItems : List Node → Nat
  | [] => 0
  | n :: rest => max (depth n) (depthOfItems rest)

def depthOfEntries : List (Node × Node) → Nat
  | [] => 0
  | (k, v) :: rest => max (max (depth k) (depth v)) (depthOfEntries rest)

end

/-- The tag is one of those whose values have parts. -/
def hasParts (n : Node) : Bool :=
  match n.head.tag with
  | .seq | .map | .set | .omap | .pairs => true
  | _ => false

/-- Where a key that is no scalar stands: its mapping, its number there, and its own position. -/
structure KeyPlace where
  mapping : Nat
  number : Nat
  key : Nat
  deriving DecidableEq

/-- Texts of keys that are no scalars. -/
abbrev KeyTexts := List (KeyPlace × String)

def keyText (keys : KeyTexts) (n : Node) (number : Nat) : Node → String
  | scalar _ text => text
  | key => (keys.lookup ⟨n.index, number, key.index⟩).getD ""

/-- Members of a set in the order of code points, each once. -/
def insertMember (s : String) : List String → List String
  | [] => [s]
  | t :: rest => if s = t then t :: rest else if s < t then s :: t :: rest else t :: insertMember s rest

def items : Node → List Node
  | sequence _ items => items
  | _ => []

/-- Key and value of each item that is a mapping of one entry. -/
def itemPairs (n : Node) : List (Node × Node) :=
  n.items.filterMap fun
    | mapping _ [pair] => some pair
    | _ => none

/-- A merge key stands in the node: it has entries that other mappings have as well. -/
def merges : Node → Bool
  | mapping _ entries => entries.any fun (key, _) => key.isMergeKey
  | _ => false

/-- The value of a node whose parts are in order. `hidden` collections show no content, and `inside`
says that the node may be met again: an anchor stands on it or around it, or it may be merged. -/
def valueFrom (keys : KeyTexts) (hidden : List Nat) : Nat → Bool → Node → Value
  | 0, _, _ => .null
  | fuel + 1, inside, n =>
    let inside := inside || n.head.anchored
    let part := fun (number : Nat) (v : Value) => if inside then .shared ⟨n.index, number⟩ v else v
    let value := valueFrom keys hidden fuel (inside || n.merges)
    let shown := !(n.head.anchored && hidden.contains n.index)
    let entries := if shown then n.flatEntries.toOption.getD [] else []
    match n.head.tag with
    | .seq => part 0 (.list (if shown then n.items.map value else []))
    | .map =>
      part 0 (.map (Dictionary.ofEntries (entries.mapIdx fun i (k, v) => (keyText keys n i k, value v))))
    | .set =>
      part 0 (.set ((entries.mapIdx fun i (k, _) => keyText keys n i k).foldl (fun s m => insertMember m s) []))
    | .omap | .pairs =>
      let pairs := if shown then n.itemPairs else []
      part 0 (.list (pairs.mapIdx fun i (k, v) => part (i + 1) (.tuple [value k, value v])))
    | _ =>
      match n.scalarValue with
      | .ok (.date d) => part 0 (.date d)
      | .ok (.datetime t) => part 0 (.datetime t)
      | .ok v => v
      | .error _ => .null

/-- How far a document has been read: collections with anchors that have been met, those of them whose
content has not been read, texts of keys, and collections that wait, the latest first. -/
structure Progress where
  met : List Nat
  hidden : List Nat
  keys : KeyTexts
  waiting : List Node

namespace Progress

def empty : Progress := ⟨[], [], [], []⟩

/-- Notes a collection; its content is hidden until it is read. -/
def note (p : Progress) (n : Node) : Progress :=
  if n.head.anchored then { p with met := n.index :: p.met, hidden := n.index :: p.hidden } else p

def reveal (p : Progress) (n : Node) : Progress := { p with hidden := p.hidden.filter (· ≠ n.index) }

/-- Has an anchor and has been met. -/
def knows (p : Progress) (n : Node) : Bool := n.head.anchored && p.met.contains n.index

mutual

/-- Meets a node. Its content is read at once when `deep`, else it waits. A collection inside itself has
no value. -/
def meet : Nat → Bool → Progress → Node → Except Error Progress
  | 0, _, p, _ => .ok p
  | fuel + 1, deep, p, n =>
    if n.head.enclosing then n.refuse .selfContained
    else if !n.hasParts then n.scalarValue.map fun _ => p
    else if p.knows n then .ok p
    else if deep then fill fuel true (p.note n) n
    else .ok { p.note n with waiting := n :: p.waiting }

/-- Reads the content of a collection. -/
def fill : Nat → Bool → Progress → Node → Except Error Progress
  | 0, _, p, _ => .ok p
  | fuel + 1, deep, p, n => do
    match n.head.tag with
    | .seq =>
      match n with
      | sequence _ items => return (← items.foldlM (meet fuel deep) p).reveal n
      | _ => n.refuse (.notSequenceNode n.kind)
    | .omap => return (← fillPairs fuel deep .orderedMap p n).reveal n
    | .pairs => return (← fillPairs fuel deep .pairs p n).reveal n
    | _ =>
      let entries ← n.flatEntries
      let (p, _) ← entries.foldlM (fun (p, number) (key, value) => do
        let p ← match key with
          | scalar .. => pure p
          | _ => do
            let p ← meet fuel true p key
            let v := valueFrom p.keys p.hidden key.depth false key
            if v.hasLongInteger then throw (.value .longKey)
            pure { p with keys := (⟨n.index, number, key.index⟩, v.plain) :: p.keys }
        return (← meet fuel deep p value, number + 1)) (p, 0)
      return p.reveal n

/-- Reads a list of mappings of one entry each. -/
def fillPairs : Nat → Bool → Context → Progress → Node → Except Error Progress
  | 0, _, _, p, _ => .ok p
  | fuel + 1, deep, context, p, n =>
    let refuse := fun (problem : Problem) (mark : Mark) =>
      Except.error (.fault ⟨some (context, some n.head.mark), problem, mark⟩)
    match n with
    | sequence _ items =>
      items.foldlM (fun p item =>
        match item with
        | mapping _ [(key, value)] => do
          let p ← meet fuel deep p key
          meet fuel deep p value
        | mapping head entries => refuse (.notSingleItem entries.length) head.mark
        | other => refuse (.notSingleMapping other.kind) other.head.mark) p
    | other => refuse (.notSequence other.kind) other.head.mark

end

/-- Reads the collections that wait, level by level. -/
def levels (fuel : Nat) : Nat → Progress → Except Error Progress
  | 0, p => .ok p
  | rounds + 1, p =>
    match p.waiting.reverse with
    | [] => .ok p
    | ns => do
      let p ← ns.foldlM (fill fuel false) { p with waiting := [] }
      levels fuel rounds p

end Progress

/-- The value of a document's root. -/
def toValue (root : Node) : Except Error Value := do
  let fuel := 3 * root.depth + 3
  let p ← Progress.empty.meet fuel false root
  let p ← p.levels fuel root.depth
  return valueFrom p.keys [] root.depth false root

end NoteVault.Yaml.Node

namespace NoteVault.Yaml

/-- The value that a text stands for, null for an empty text. -/
def read (text : String) : Except Error Value := do
  match ← Node.ofString? text with
  | none => return .null
  | some root => root.toValue

end NoteVault.Yaml
