import NoteVault.Proofs.Yaml.Node.Composed
import NoteVault.Proofs.Yaml.Node.Reached

/-!
Which texts have values. A text has none for a fault of it, for an escape that stands for no character, or for a node
that is read for its value and stands for none.
-/
namespace NoteVault.Yaml

namespace Node

theorem mem_entryNodes {entries : List (Node × Node)} {n : Node} :
    n ∈ entryNodes entries ↔ ∃ o ∈ entries, n = o.1 ∨ n = o.2 := by
  simp [entryNodes]

/-- The entries of a mapping are entries of it or of a mapping in it, which merge keys bring in. -/
theorem exists_mapping_of_flatEntries {n : Node} {pairs : List (Node × Node)} (h : n.flatEntries = .ok pairs) :
    ∀ o ∈ pairs, ∃ head entries, n.Contains (mapping head entries) ∧ o ∈ entries := by
  refine flatEntries_induction (fun _ _ => by simp) (fun head entries parts hparts o ho => ?_) h
  obtain ho | ho := List.mem_append.1 ho
  · obtain ⟨part, hpart, ho⟩ := List.mem_flatten.1 ho
    obtain ⟨e, he, hexpands⟩ := (exists_of_forall₂ hparts).2 part hpart
    obtain ⟨n, pairs, hn, hmotive, ho⟩ := hexpands.exists_of_mem ho
    have hvalue : e.2 ∈ (mapping head entries).children := mem_entryNodes.2 ⟨e, he, .inr rfl⟩
    have hwithin : (mapping head entries).Contains n := by
      obtain rfl | ⟨head', items, heq, hn⟩ := hn
      · exact .single hvalue
      · exact .tail (.single hvalue) (heq ▸ hn)
    obtain ⟨head', entries', hcontains, hmem⟩ := hmotive o ho
    exact ⟨head', entries', hwithin.trans hcontains, hmem⟩
  · exact ⟨head, entries, .refl, List.mem_of_mem_filter ho⟩

theorem contains_of_flatEntries {n : Node} {pairs : List (Node × Node)} (h : n.flatEntries = .ok pairs) :
    ∀ o ∈ pairs, n.Contains o.1 ∧ n.Contains o.2 := by
  intro o ho
  obtain ⟨_, _, hcontains, hmem⟩ := exists_mapping_of_flatEntries h o ho
  exact ⟨.tail hcontains (mem_entryNodes.2 ⟨o, hmem, .inl rfl⟩), .tail hcontains (mem_entryNodes.2 ⟨o, hmem, .inr rfl⟩)⟩

theorem mem_children_of_mem_items {n m : Node} (h : m ∈ n.items) : m ∈ n.children := by
  cases n with
  | sequence _ _ => exact h
  | scalar _ _ | mapping _ _ => cases h

/-- What is read of a node stands in it. -/
theorem contains_of_opens {n m : Node} (h : n.Opens m) : n.Contains m := by
  cases h with
  | item _ hm => exact .single (mem_children_of_mem_items hm)
  | @pair o _ _ ho hm =>
    obtain ⟨k, hk, hsingle⟩ := List.mem_filterMap.1 ho
    split at hsingle
    next head pair =>
      cases hsingle
      exact .tail (.single (mem_children_of_mem_items hk)) (mem_entryNodes.2 ⟨o, List.mem_singleton_self o, hm⟩)
    next => cases hsingle
  | key _ hpairs ho _ => exact (contains_of_flatEntries hpairs _ ho).1
  | value _ hpairs ho => exact (contains_of_flatEntries hpairs _ ho).2

theorem contains_of_reads {n m : Node} (h : n.Reads m) : n.Contains m := by
  induction h with
  | refl => exact .refl
  | tail _ hopens ih => exact ih.trans (contains_of_opens hopens)

mutual

/-- All keys in a node are scalars. -/
def hasScalarKeys : Node → Bool
  | scalar _ _ => true
  | sequence _ items => itemsHaveScalarKeys items
  | mapping _ entries => entriesHaveScalarKeys entries

def itemsHaveScalarKeys : List Node → Bool
  | [] => true
  | n :: rest => hasScalarKeys n && itemsHaveScalarKeys rest

def entriesHaveScalarKeys : List (Node × Node) → Bool
  | [] => true
  | (key, value) :: rest => key.name?.isSome && hasScalarKeys value && entriesHaveScalarKeys rest

end

theorem itemsHaveScalarKeys_iff (items : List Node) :
    itemsHaveScalarKeys items = true ↔ ∀ n ∈ items, n.hasScalarKeys = true := by
  induction items with
  | nil => simp [itemsHaveScalarKeys]
  | cons n rest ih => rw [itemsHaveScalarKeys, Bool.and_eq_true, ih, List.forall_mem_cons]

theorem entriesHaveScalarKeys_iff (entries : List (Node × Node)) : entriesHaveScalarKeys entries = true ↔
    ∀ o ∈ entries, o.1.name?.isSome = true ∧ o.2.hasScalarKeys = true := by
  induction entries with
  | nil => simp [entriesHaveScalarKeys]
  | cons o rest ih => rw [entriesHaveScalarKeys, Bool.and_eq_true, Bool.and_eq_true, ih, List.forall_mem_cons]

theorem hasScalarKeys_of_mem_children {n m : Node} (h : n.hasScalarKeys = true) (hm : m ∈ n.children) :
    m.hasScalarKeys = true := by
  cases n with
  | scalar _ _ => cases hm
  | sequence _ items =>
    rw [hasScalarKeys, itemsHaveScalarKeys_iff] at h
    exact h m hm
  | mapping _ entries =>
    rw [hasScalarKeys, entriesHaveScalarKeys_iff] at h
    obtain ⟨o, ho, rfl | rfl⟩ := mem_entryNodes.1 hm
    · have hname := (h o ho).1
      cases hkey : o.1 with
      | scalar _ _ => rw [hasScalarKeys]
      | sequence _ _ | mapping _ _ =>
        rw [hkey] at hname
        cases hname
    · exact (h o ho).2

theorem hasScalarKeys_of_contains {n m : Node} (h : n.hasScalarKeys = true) (hm : n.Contains m) :
    m.hasScalarKeys = true := by
  induction hm with
  | refl => exact h
  | tail _ hchild ih => exact hasScalarKeys_of_mem_children ih hchild

/-- Entries that merge keys bring in have scalar keys as well. -/
theorem name?_of_flatEntries {n : Node} {pairs : List (Node × Node)} (h : n.flatEntries = .ok pairs)
    (hn : n.hasScalarKeys = true) : ∀ o ∈ pairs, o.1.name?.isSome = true := by
  intro o ho
  obtain ⟨_, _, hcontains, hmem⟩ := exists_mapping_of_flatEntries h o ho
  have hkeys := hasScalarKeys_of_contains hn hcontains
  rw [hasScalarKeys, entriesHaveScalarKeys_iff] at hkeys
  exact (hkeys o hmem).1

/-- Documents whose keys are scalars have simple keys. -/
theorem hasSimpleKeys_of_hasScalarKeys {root : Node} (h : root.hasScalarKeys = true) : root.HasSimpleKeys := by
  intro n hn _ pairs hpairs o ho hnone
  have hname := name?_of_flatEntries hpairs (hasScalarKeys_of_contains h (contains_of_reads hn)) o ho
  rw [hnone] at hname
  cases hname

/-- In the document of a text, collections with an anchor that begin at one place are one collection. -/
theorem anchorsAgree_of_ofString? {text : String} {root : Node} (h : ofString? text = .ok (some root)) :
    root.AnchorsAgree := fun _ _ hn hm hanchored hmanchored hindex =>
  eq_of_ofString? h (contains_of_reads hn.reads) (contains_of_reads hm.reads) ⟨hanchored, hn.inner⟩
    ⟨hmanchored, hm.inner⟩ hindex

end Node

open Node

/-- A text has an escape that stands for no character, or a node of it that is read for its value stands for none. -/
def HasNoValue (text : String) : Prop :=
  (∃ far, HasFarEscape text far) ∨ ∃ root n, ofString? text = .ok (some root) ∧ root.Reads n ∧ n.HasNoValue

section Root

variable {text : String} {root : Node}

theorem read_of_root (h : ofString? text = .ok (some root)) : read text = root.toValue := by
  rw [read, h]
  rfl

end Root

end NoteVault.Yaml
