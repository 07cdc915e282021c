import Mathlib.Tactic
import NoteVault.Proofs.Failure
import NoteVault.Yaml.Node.Value

/-!
The entries of a mapping with those that its merge keys bring in, as an induction: what a merge key brings in are the
entries of a mapping, or of the mappings in a list, which are found in the same way.
-/
namespace NoteVault.Yaml.Node

theorem depth_pos (n : Node) : 0 < n.depth := by
  cases n <;> simp [depth]

theorem depth_lt_of_mem_items {head : NodeHead} {items : List Node} {n : Node} (h : n ∈ items) :
    n.depth < (sequence head items).depth := by
  have hle : n.depth ≤ depthOfItems items := by
    induction items with
    | nil => cases h
    | cons m rest ih =>
      rw [depthOfItems]
      obtain rfl | h := List.mem_cons.1 h
      · exact Nat.le_max_left _ _
      · exact (ih h).trans (Nat.le_max_right _ _)
  rw [depth]
  omega

theorem depth_lt_of_mem_entries (head : NodeHead) {entries : List (Node × Node)} {e : Node × Node} (h : e ∈ entries) :
    e.1.depth < (mapping head entries).depth ∧ e.2.depth < (mapping head entries).depth := by
  have hle : e.1.depth ≤ depthOfEntries entries ∧ e.2.depth ≤ depthOfEntries entries := by
    induction entries with
    | nil => cases h
    | cons f rest ih =>
      obtain ⟨key, value⟩ := f
      rw [depthOfEntries]
      obtain rfl | h := List.mem_cons.1 h
      · exact ⟨(Nat.le_max_left _ _).trans (Nat.le_max_left _ _), (Nat.le_max_right _ _).trans (Nat.le_max_left _ _)⟩
      · have := ih h
        omega
  rw [depth]
  omega

theorem depth_lt_of_item {n m : Node} (h : m ∈ n.items) : m.depth < n.depth := by
  cases n with
  | sequence head items => exact depth_lt_of_mem_items h
  | scalar _ _ | mapping _ _ => cases h

/-- Keys and values of pairs are two levels below their list. -/
theorem depth_lt_of_mem_itemPairs {n : Node} {o : Node × Node} (h : o ∈ n.itemPairs) :
    o.1.depth + 1 < n.depth ∧ o.2.depth + 1 < n.depth := by
  obtain ⟨m, hm, hsingle⟩ := List.mem_filterMap.1 h
  have hlt := depth_lt_of_item hm
  split at hsingle
  next head pair =>
    cases hsingle
    obtain ⟨hkey, hvalue⟩ : o.1.depth < _ ∧ o.2.depth < _ := depth_lt_of_mem_entries head (List.mem_singleton_self o)
    omega
  next => cases hsingle

/-- The expansion of a list of entries: what each merge key brings in, one after another. -/
theorem forall₂_of_mergedEntries {mark : Mark} {entries merged : List (Node × Node)}
    (h : mergedEntries mark entries = .ok merged) :
    ∃ parts, List.Forall₂
      (fun e part => if e.1.isMergeKey then mergedFrom mark e.2 = .ok part else part = []) entries parts ∧
      merged = parts.flatten := by
  induction entries generalizing merged with
  | nil =>
    rw [mergedEntries] at h
    cases h
    exact ⟨[], .nil, rfl⟩
  | cons e rest ih =>
    obtain ⟨key, value⟩ := e
    rw [mergedEntries] at h
    split at h
    next hkey =>
      obtain ⟨first, hfirst, h⟩ := bind_eq_ok.1 h
      obtain ⟨more, hmore, h⟩ := bind_eq_ok.1 h
      cases h
      obtain ⟨parts, hparts, rfl⟩ := ih hmore
      exact ⟨first :: parts, .cons (by simpa [hkey] using hfirst) hparts, rfl⟩
    next hkey =>
      obtain ⟨parts, hparts, rfl⟩ := ih h
      exact ⟨[] :: parts, .cons (by simp [hkey]) hparts, rfl⟩

/-- The items of a list under a merge key are mappings, each of which is expanded. -/
theorem forall₂_of_mergedItems {mark : Mark} {items : List Node} {parts : List (List (Node × Node))}
    (h : mergedItems mark items = .ok parts) :
    List.Forall₂ (fun n part => n.kind = .mapping ∧ n.flatEntries = .ok part) items parts := by
  induction items generalizing parts with
  | nil =>
    rw [mergedItems] at h
    cases h
    exact .nil
  | cons n rest ih =>
    cases n with
    | mapping head entries =>
      rw [mergedItems] at h
      obtain ⟨merged, hmerged, h⟩ := bind_eq_ok.1 h
      obtain ⟨more, hmore, h⟩ := bind_eq_ok.1 h
      cases h
      refine .cons ⟨rfl, ?_⟩ (ih hmore)
      rw [flatEntries, hmerged]
      rfl
    | scalar _ _ =>
      rw [mergedItems] at h
      · cases h
      · intro _ _ hmapping
        cases hmapping
    | sequence _ _ =>
      rw [mergedItems] at h
      · cases h
      · intro _ _ hmapping
        cases hmapping

theorem mergedFrom_mapping {mark : Mark} {head : NodeHead} {entries : List (Node × Node)} :
    mergedFrom mark (mapping head entries) = (mapping head entries).flatEntries := by
  rw [mergedFrom, flatEntries]

/-- What an entry of a mapping brings in besides itself. -/
inductive Expands (motive : Node → List (Node × Node) → Prop) : Node × Node → List (Node × Node) → Prop
  | other {e : Node × Node} (hkey : e.1.isMergeKey = false) : Expands motive e []
  | mapping {key : Node} {head : NodeHead} {entries part : List (Node × Node)} (hkey : key.isMergeKey = true)
    (h : motive (.mapping head entries) part) : Expands motive (key, .mapping head entries) part
  | sequence {key : Node} {head : NodeHead} {items : List Node} {parts : List (List (Node × Node))}
    (hkey : key.isMergeKey = true) (h : List.Forall₂ (fun n part => n.kind = .mapping ∧ motive n part) items parts) :
    Expands motive (key, .sequence head items) parts.reverse.flatten

/-- What a merge key brings in comes from mappings in its value. -/
theorem Expands.exists_of_mem {motive : Node → List (Node × Node) → Prop} {e pair : Node × Node}
    {part : List (Node × Node)} (h : Expands motive e part) (hpair : pair ∈ part) :
    ∃ n pairs, (n = e.2 ∨ ∃ head items, e.2 = .sequence head items ∧ n ∈ items) ∧ motive n pairs ∧ pair ∈ pairs := by
  cases h with
  | other _ => cases hpair
  | mapping _ h => exact ⟨_, part, .inl rfl, h, hpair⟩
  | sequence _ h =>
    obtain ⟨pairs, hpairs, hpair⟩ := List.mem_flatten.1 hpair
    obtain ⟨n, hn, -, hmotive⟩ := (exists_of_forall₂ h).2 pairs (List.mem_reverse.1 hpairs)
    exact ⟨n, pairs, .inr ⟨_, _, rfl, hn⟩, hmotive, hpair⟩

/-- A mapping has what its merge keys bring in and its other entries, and nothing else has entries. -/
@[elab_as_elim]
theorem flatEntries_induction {motive : Node → List (Node × Node) → Prop}
    (other : ∀ n, n.kind ≠ .mapping → motive n [])
    (mapping : ∀ head entries parts, List.Forall₂ (Expands motive) entries parts →
      motive (.mapping head entries) (parts.flatten ++ entries.filter fun (key, _) => !key.isMergeKey))
    {n : Node} {pairs : List (Node × Node)} (h : n.flatEntries = .ok pairs) : motive n pairs := by
  induction hdepth : n.depth using Nat.strong_induction_on generalizing n pairs with
  | _ depth ih =>
    subst hdepth
    cases n with
    | scalar _ text =>
      rw [flatEntries] at h
      split at h <;> cases h
      exact other _ nofun
    | sequence _ items =>
      rw [flatEntries] at h
      split at h <;> cases h
      exact other _ nofun
    | mapping head entries =>
      rw [flatEntries] at h
      obtain ⟨merged, hmerged, h⟩ := bind_eq_ok.1 h
      cases h
      obtain ⟨parts, hparts, rfl⟩ := forall₂_of_mergedEntries hmerged
      refine mapping head entries parts (forall₂_imp_of_mem hparts fun e he part hpart => ?_)
      obtain ⟨key, value⟩ := e
      have hlt := (depth_lt_of_mem_entries head he).2
      split at hpart
      next hkey =>
        cases value with
        | scalar _ _ =>
          rw [mergedFrom] at hpart
          cases hpart
        | mapping _ _ => exact .mapping hkey (ih _ hlt (mergedFrom_mapping ▸ hpart) rfl)
        | sequence _ items =>
          rw [mergedFrom] at hpart
          obtain ⟨parts, hparts, hpart⟩ := bind_eq_ok.1 hpart
          cases hpart
          exact .sequence hkey (forall₂_imp_of_mem (forall₂_of_mergedItems hparts) fun n hn part hpart =>
            ⟨hpart.1, ih _ ((depth_lt_of_mem_items hn).trans hlt) hpart.2 rfl⟩)
      next hkey =>
        subst hpart
        exact .other (by simpa using hkey)

/-- Entries are less deep than their mapping, those that merge keys bring in as well. -/
theorem depth_lt_of_flatEntries {n : Node} {pairs : List (Node × Node)} (h : n.flatEntries = .ok pairs) :
    ∀ o ∈ pairs, o.1.depth < n.depth ∧ o.2.depth < n.depth := by
  refine flatEntries_induction (fun _ _ => by simp) (fun head entries parts hparts o ho => ?_) h
  obtain ho | ho := List.mem_append.1 ho
  · obtain ⟨part, hpart, ho⟩ := List.mem_flatten.1 ho
    obtain ⟨e, he, hexpands⟩ := (exists_of_forall₂ hparts).2 part hpart
    obtain ⟨n, pairs, hn, hmotive, ho⟩ := hexpands.exists_of_mem ho
    have hlt : n.depth < (mapping head entries).depth := by
      have hvalue := (depth_lt_of_mem_entries head he).2
      obtain rfl | ⟨head', items, heq, hn⟩ := hn
      · exact hvalue
      · exact (depth_lt_of_mem_items hn).trans (heq ▸ hvalue)
    exact ⟨(hmotive o ho).1.trans hlt, (hmotive o ho).2.trans hlt⟩
  · exact depth_lt_of_mem_entries head (List.mem_of_mem_filter ho)

end NoteVault.Yaml.Node
