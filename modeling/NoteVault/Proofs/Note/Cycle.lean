import NoteVault.Note
import NoteVault.Proofs.Failure

/-!
Headers in which a collection stands inside itself. What they stand for has no end, and is no `Value`: such a header is
refused when it is read, also where an endless value could be formed.
-/
namespace NoteVault

namespace Yaml.Node

/-- An alias in the node names a collection that it stands in. -/
inductive HoldsItself : Node → Prop
  | enclosing {n : Node} (h : n.head.enclosing = true) : HoldsItself n
  | item {head : NodeHead} {items : List Node} {n : Node} (hn : n ∈ items) (h : HoldsItself n) :
    HoldsItself (sequence head items)
  | key {head : NodeHead} {entries : List (Node × Node)} {e : Node × Node} (he : e ∈ entries) (h : HoldsItself e.1) :
    HoldsItself (mapping head entries)
  | value {head : NodeHead} {entries : List (Node × Node)} {e : Node × Node} (he : e ∈ entries) (h : HoldsItself e.2) :
    HoldsItself (mapping head entries)

mutual

def hasEnclosing : Node → Bool
  | scalar head _ => head.enclosing
  | sequence head items => head.enclosing || anyEnclosing items
  | mapping head entries => head.enclosing || entriesHaveEnclosing entries

def anyEnclosing : List Node → Bool
  | [] => false
  | n :: rest => hasEnclosing n || anyEnclosing rest

def entriesHaveEnclosing : List (Node × Node) → Bool
  | [] => false
  | (k, v) :: rest => hasEnclosing k || hasEnclosing v || entriesHaveEnclosing rest

end

theorem anyEnclosing_eq_any (items : List Node) : anyEnclosing items = items.any hasEnclosing := by
  induction items with
  | nil => rfl
  | cons n rest ih => rw [anyEnclosing, ih, List.any_cons]

theorem entriesHaveEnclosing_eq_any (entries : List (Node × Node)) :
    entriesHaveEnclosing entries = entries.any fun e => hasEnclosing e.1 || hasEnclosing e.2 := by
  induction entries with
  | nil => rfl
  | cons e rest ih => rw [entriesHaveEnclosing, ih, List.any_cons]

theorem hasEnclosing_of_head {n : Node} (h : n.head.enclosing = true) : n.hasEnclosing = true := by
  cases n <;> simp_all [hasEnclosing, head]

theorem HoldsItself.hasEnclosing {n : Node} (h : n.HoldsItself) : n.hasEnclosing = true := by
  induction h with
  | enclosing h => exact hasEnclosing_of_head h
  | item hn _ ih =>
    rw [Node.hasEnclosing, anyEnclosing_eq_any, List.any_eq_true.2 ⟨_, hn, ih⟩, Bool.or_true]
  | key he _ ih =>
    rw [Node.hasEnclosing, entriesHaveEnclosing_eq_any, List.any_eq_true.2 ⟨_, he, by rw [ih, Bool.true_or]⟩,
      Bool.or_true]
  | value he _ ih =>
    rw [Node.hasEnclosing, entriesHaveEnclosing_eq_any, List.any_eq_true.2 ⟨_, he, by rw [ih, Bool.or_true]⟩,
      Bool.or_true]

mutual

theorem holdsItself_of_hasEnclosing (n : Node) (h : n.hasEnclosing = true) : n.HoldsItself := by
  cases n with
  | scalar head text => exact .enclosing h
  | sequence head items =>
    rw [hasEnclosing, Bool.or_eq_true] at h
    obtain h | h := h
    · exact .enclosing h
    · obtain ⟨n, hn, hholds⟩ := exists_of_anyEnclosing items h
      exact .item hn hholds
  | mapping head entries =>
    rw [hasEnclosing, Bool.or_eq_true] at h
    obtain h | h := h
    · exact .enclosing h
    · obtain ⟨e, he, hholds | hholds⟩ := exists_of_entriesHaveEnclosing entries h
      · exact .key he hholds
      · exact .value he hholds

theorem exists_of_anyEnclosing (items : List Node) (h : anyEnclosing items = true) : ∃ n ∈ items, n.HoldsItself := by
  cases items with
  | nil => cases h
  | cons n rest =>
    rw [anyEnclosing, Bool.or_eq_true] at h
    obtain h | h := h
    · exact ⟨n, List.mem_cons_self, holdsItself_of_hasEnclosing n h⟩
    · obtain ⟨m, hm, hholds⟩ := exists_of_anyEnclosing rest h
      exact ⟨m, List.mem_cons_of_mem _ hm, hholds⟩

theorem exists_of_entriesHaveEnclosing (entries : List (Node × Node)) (h : entriesHaveEnclosing entries = true) :
    ∃ e ∈ entries, e.1.HoldsItself ∨ e.2.HoldsItself := by
  cases entries with
  | nil => cases h
  | cons e rest =>
    rw [entriesHaveEnclosing, Bool.or_eq_true, Bool.or_eq_true] at h
    obtain (h | h) | h := h
    · exact ⟨e, List.mem_cons_self, .inl (holdsItself_of_hasEnclosing e.1 h)⟩
    · exact ⟨e, List.mem_cons_self, .inr (holdsItself_of_hasEnclosing e.2 h)⟩
    · obtain ⟨f, hf, hholds⟩ := exists_of_entriesHaveEnclosing rest h
      exact ⟨f, List.mem_cons_of_mem _ hf, hholds⟩

end

instance (n : Node) : Decidable n.HoldsItself :=
  decidable_of_iff (n.hasEnclosing = true) ⟨holdsItself_of_hasEnclosing n, HoldsItself.hasEnclosing⟩

end Yaml.Node

namespace Note

/-- A collection in the header of a note holds itself. -/
def HoldsItself (content : String) : Prop :=
  ∃ header body root, split content = some (header, body) ∧ Yaml.Node.ofString? header = .ok (some root) ∧
    root.HoldsItself

def hasCycle (content : String) : Bool :=
  (split content).any fun (header, _) => (Yaml.Node.ofString? header).toOption.any fun root => root.any (·.hasEnclosing)

theorem hasCycle_iff {content : String} : hasCycle content = true ↔ HoldsItself content := by
  constructor
  · intro h
    obtain ⟨⟨header, body⟩, hsplit, h⟩ := Option.any_eq_true _ _ |>.1 h
    obtain ⟨root, hroot, h⟩ := exists_of_toOption_any h
    obtain ⟨n, rfl, h⟩ := Option.any_eq_true _ _ |>.1 h
    exact ⟨header, body, n, hsplit, hroot, Yaml.Node.holdsItself_of_hasEnclosing n h⟩
  · rintro ⟨header, body, root, hsplit, hroot, h⟩
    simp [hasCycle, hsplit, hroot, Except.toOption, h.hasEnclosing]

instance (content : String) : Decidable (HoldsItself content) := decidable_of_iff _ hasCycle_iff

/-- A pair whose value is the list that it stands in. -/
example : HoldsItself "---\na: &x !!pairs [k: *x]\n---\n" := by decide +kernel

end Note

end NoteVault
