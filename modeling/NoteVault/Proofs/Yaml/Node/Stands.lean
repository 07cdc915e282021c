import NoteVault.Proofs.Yaml.Kinds
import NoteVault.Yaml.Node.Value

/-!
Values that are read back from what is written for them, and the nodes that stand for them. Of the objects
only sets keep their places; one that occurs several times stands at its anchor.
-/
namespace NoteVault.Yaml

open Node

/-- A scalar is written for the value, and nodes of its tag and its text have the value. -/
def Content.Restores (c : Content) (v : Value) : Prop :=
  ∃ tag wish text, c = scalar none tag wish text ∧ c.IsSound ∧
    ∀ mark, (Node.scalar ⟨tag, mark, false, false⟩ (String.ofList text)).hasParts = false ∧
      (Node.scalar ⟨tag, mark, false, false⟩ (String.ofList text)).scalarValue = .ok v

/-- Members of a set, in order, which are read back as keys. -/
structure AreMembers (members : List String) : Prop where
  sorted : members.Pairwise (· < ·)
  keys : ∀ k ∈ members, Content.IsKey k

mutual

/-- Scalars, keys and members in the value are read back, and no tuple is in it. -/
def ReadsBack : Value → Prop
  | .list items => ItemsReadBack items
  | .tuple _ => False
  | .map entries => (Dictionary.keys entries).Nodup ∧ EntriesReadBack entries
  | .set members => AreMembers members
  | .shared _ v => ∃ members, v = .set members ∧ AreMembers members
  | v => (Content.ofValue [] [] v).1.Restores v

def ItemsReadBack : List Value → Prop
  | [] => True
  | v :: rest => ReadsBack v ∧ ItemsReadBack rest

def EntriesReadBack : List (String × Value) → Prop
  | [] => True
  | (k, v) :: rest => Content.IsKey k ∧ ReadsBack v ∧ EntriesReadBack rest

end

/-- A node for a key. -/
def Node.IsKey (k : String) (n : Node) : Prop := ∃ mark, n = scalar ⟨.str, mark, false, false⟩ k

/-- A node for null. -/
def Node.IsNull (n : Node) : Prop := ∃ mark, n = scalar ⟨.null, mark, false, false⟩ "null"

/-- Nodes for the members of a set. -/
def MembersStand (members : List String) (entries : List (Node × Node)) : Prop :=
  List.Forall₂ (fun k e => Node.IsKey k e.1 ∧ Node.IsNull e.2) members entries

mutual

/-- The node stands for the value. The objects in `repeated` have anchors, and the anchor of number `n` is
at the position `ρ n`. -/
def Stands (repeated : List Value) (ρ : Nat → Nat) : Value → Node → Prop
  | .list items, n => ∃ mark nodes, n = sequence ⟨.seq, mark, false, false⟩ nodes ∧ ItemsStand repeated ρ items nodes
  | .tuple _, _ => False
  | .map entries, n =>
    ∃ mark nodes, n = mapping ⟨.map, mark, false, false⟩ nodes ∧ EntriesStand repeated ρ entries nodes
  | .set members, n => ∃ mark nodes, n = mapping ⟨.set, mark, false, false⟩ nodes ∧ MembersStand members nodes
  | .shared place v, n =>
    ∃ members mark nodes, v = .set members ∧
      n = mapping ⟨.set, mark, repeated.contains (.shared place v), false⟩ nodes ∧ MembersStand members nodes ∧
      (.shared place v ∈ repeated → mark.index = ρ (repeated.idxOf (.shared place v) + 1))
  | v, n =>
    ∃ tag mark text, n = scalar ⟨tag, mark, false, false⟩ text ∧ n.hasParts = false ∧ n.scalarValue = .ok v

def ItemsStand (repeated : List Value) (ρ : Nat → Nat) : List Value → List Node → Prop
  | [], nodes => nodes = []
  | v :: rest, nodes => ∃ n more, nodes = n :: more ∧ Stands repeated ρ v n ∧ ItemsStand repeated ρ rest more

def EntriesStand (repeated : List Value) (ρ : Nat → Nat) : List (String × Value) → List (Node × Node) → Prop
  | [], nodes => nodes = []
  | (k, v) :: rest, nodes =>
    ∃ key n more, nodes = (key, n) :: more ∧ Node.IsKey k key ∧ Stands repeated ρ v n ∧
      EntriesStand repeated ρ rest more

end

/-- A value without parts and without a place. -/
def isSimple : Value → Bool
  | .list _ | .tuple _ | .map _ | .set _ | .shared _ _ => false
  | _ => true

theorem readsBack_simple {v : Value} (h : isSimple v = true) :
    ReadsBack v = (Content.ofValue [] [] v).1.Restores v := by
  cases v <;> first | rfl | exact absurd h (by simp [isSimple])

theorem stands_simple {v : Value} (h : isSimple v = true) {repeated : List Value} {ρ : Nat → Nat} {n : Node} :
    Stands repeated ρ v n =
      ∃ tag mark text, n = scalar ⟨tag, mark, false, false⟩ text ∧ n.hasParts = false ∧ n.scalarValue = .ok v := by
  cases v <;> first | rfl | exact absurd h (by simp [isSimple])

theorem ofValue_simple {v : Value} (h : isSimple v = true) (repeated written : List Value) :
    Content.ofValue repeated written v = ((Content.ofValue [] [] v).1, written) := by
  cases v <;> first | rfl | exact absurd h (by simp [isSimple])

end NoteVault.Yaml
