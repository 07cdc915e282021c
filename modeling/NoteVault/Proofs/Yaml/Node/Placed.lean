import NoteVault.Proofs.Value.Links
import NoteVault.Proofs.Yaml.Node.Value
import NoteVault.Value.Digits

/-!
A value and the value that is read back for it, which differ in the places of objects only.
-/
namespace NoteVault

namespace Value

mutual

/-- The data of a value, whatever objects it is made of. -/
def unshared : Value → Value
  | list items => list (unsharedItems items)
  | tuple items => tuple (unsharedItems items)
  | map entries => map (unsharedEntries entries)
  | shared _ v => unshared v
  | v => v

def unsharedItems : List Value → List Value
  | [] => []
  | v :: rest => unshared v :: unsharedItems rest

def unsharedEntries : List (String × Value) → List (String × Value)
  | [] => []
  | (k, v) :: rest => (k, unshared v) :: unsharedEntries rest

end

end Value

namespace Yaml

open Value (unshared unsharedItems unsharedEntries)

variable {repeated : List Value} {ρ : Nat → Nat}

theorem itemsReadBack_iff {items : List Value} : ItemsReadBack items ↔ ∀ v ∈ items, ReadsBack v := by
  induction items with
  | nil => simp [ItemsReadBack]
  | cons v rest ih => rw [ItemsReadBack, ih, List.forall_mem_cons]

theorem entriesReadBack_iff {entries : List (String × Value)} :
    EntriesReadBack entries ↔ ∀ e ∈ entries, Content.IsKey e.1 ∧ ReadsBack e.2 := by
  induction entries with
  | nil => simp [EntriesReadBack]
  | cons e rest ih => rw [EntriesReadBack, ih, List.forall_mem_cons, and_assoc]

theorem placedItems_eq_map (items : List Value) : placedItems repeated ρ items = items.map (placed repeated ρ) := by
  induction items with
  | nil => rfl
  | cons v rest ih => rw [placedItems, ih, List.map_cons]

theorem placedEntries_eq_map (entries : List (String × Value)) :
    placedEntries repeated ρ entries = entries.map fun (k, v) => (k, placed repeated ρ v) := by
  induction entries with
  | nil => rfl
  | cons e rest ih => rw [placedEntries, ih, List.map_cons]

mutual

theorem unshared_placed (v : Value) : (placed repeated ρ v).unshared = v.unshared := by
  cases v with
  | list items => rw [placed, unshared, unshared, unsharedItems_placed items]
  | map entries => rw [placed, unshared, unshared, unsharedEntries_placed entries]
  | shared place v =>
    rw [placed]
    split <;> rw [unshared]
    rfl
  | _ => rfl

theorem unsharedItems_placed (items : List Value) :
    unsharedItems (placedItems repeated ρ items) = unsharedItems items := by
  cases items with
  | nil => rfl
  | cons v rest => rw [placedItems, unsharedItems, unsharedItems, unshared_placed v, unsharedItems_placed rest]

theorem unsharedEntries_placed (entries : List (String × Value)) :
    unsharedEntries (placedEntries repeated ρ entries) = unsharedEntries entries := by
  cases entries with
  | nil => rfl
  | cons e rest =>
    rw [placedEntries, unsharedEntries, unsharedEntries, unshared_placed e.2, unsharedEntries_placed rest]

end

theorem placed_object {place : Place} {v : Value} (h : ReadsBack (.shared place v)) :
    ∃ members, v = .set members ∧
      (placed repeated ρ (.shared place v) = .set members ∨
        ∃ q, placed repeated ρ (.shared place v) = .shared q (.set members)) := by
  obtain ⟨members, rfl, -⟩ := h
  refine ⟨members, rfl, ?_⟩
  rw [placed]
  split
  · exact .inr ⟨_, rfl⟩
  · exact .inl rfl

mutual

/-- A value in normal form is read back in normal form. -/
theorem isNormal_placed (v : Value) (h : ReadsBack v) (hv : v.IsNormal) : (placed repeated ρ v).IsNormal := by
  cases v with
  | list items =>
    rw [placed, placedItems_eq_map, Value.isNormal_list]
    exact areNormal_placed items h (Value.isNormal_list.1 hv)
  | map entries =>
    rw [placed, placedEntries_eq_map, Value.isNormal_map]
    exact entriesAreNormal_placed entries h.2 (Value.isNormal_map.1 hv)
  | shared place v =>
    obtain ⟨members, -, hset⟩ := placed_object h
    obtain hset | ⟨q, hset⟩ := hset
    all_goals rw [hset]; rfl
  | tuple _ => exact absurd h id
  | _ => exact hv

theorem areNormal_placed (items : List Value) (h : ItemsReadBack items) (hv : ∀ v ∈ items, v.IsNormal) :
    ∀ v ∈ items.map (placed repeated ρ), v.IsNormal := by
  cases items with
  | nil => simp
  | cons v rest =>
    rw [List.map_cons, List.forall_mem_cons]
    rw [List.forall_mem_cons] at hv
    exact ⟨isNormal_placed v h.1 hv.1, areNormal_placed rest h.2 hv.2⟩

theorem entriesAreNormal_placed (entries : List (String × Value)) (h : EntriesReadBack entries)
    (hv : ∀ e ∈ entries, e.2.IsNormal) :
    ∀ e ∈ entries.map (fun (k, v) => (k, placed repeated ρ v)), Value.IsNormal e.2 := by
  cases entries with
  | nil => simp
  | cons e rest =>
    rw [List.map_cons, List.forall_mem_cons]
    rw [List.forall_mem_cons] at hv
    exact ⟨isNormal_placed e.2 h.2.1 hv.1, entriesAreNormal_placed rest h.2.2 hv.2⟩

end

theorem normal_placed_asLink {v : Value} (h : ReadsBack v.asLink) (hv : v.IsNormal) :
    (placed repeated ρ v.asLink).normal = placed repeated ρ v := by
  cases v with
  | str s =>
    have hsimple : placed repeated ρ (Value.str s).asLink = (Value.str s).asLink := by
      rw [Value.asLink]
      split <;> rfl
    rw [hsimple, hv.normal_asLink]
    rfl
  | _ => exact isNormal_placed _ h hv

/-- References that are written as links are read back as what they were. -/
theorem normal_placed_asLinks {v : Value} (h : ReadsBack v.asLinks) (hv : v.IsNormal) :
    (placed repeated ρ v.asLinks).normal = placed repeated ρ v := by
  cases v with
  | list items =>
    rw [Value.asLinks, ReadsBack, itemsReadBack_iff, List.forall_mem_map] at h
    rw [Value.asLinks, placed, placed, placedItems_eq_map, placedItems_eq_map, Value.normal_list, List.map_map,
      List.map_map]
    exact congrArg Value.list
      (List.map_congr_left fun v hmem => normal_placed_asLink (h v hmem) (Value.isNormal_list.1 hv v hmem))
  | shared place v =>
    cases v with
    | list items => cases hv
    | _ => exact normal_placed_asLink (v := .shared place _) h hv
  | _ =>
    simp only [Value.asLinks] at h ⊢
    exact normal_placed_asLink h hv

end Yaml

end NoteVault
