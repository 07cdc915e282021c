import NoteVault.Proofs.Repair.Keys

/-!
The order of keys after the usual repairs, and front matter that they leave as it is: what they have repaired is
among it.
-/
namespace NoteVault

/-- Keys in the order of a type, or of code points where there is none. -/
def keysInOrder (entry : Option SchemaEntry) (keys : List String) : List String :=
  match entry with
  | some e => (Text.firstOccurrences e.keyOrder).filter (· ∈ keys) ++ keys.filter (· ∉ e.keyOrder)
  | none => Text.sorted keys

theorem mem_keysInOrder {entry : Option SchemaEntry} {keys : List String} {key : String} :
    key ∈ keysInOrder entry keys ↔ key ∈ keys := by
  cases entry with
  | none => exact (Text.sorted_perm keys).mem_iff
  | some e =>
    simp only [keysInOrder, List.mem_append, List.mem_filter, Text.mem_firstOccurrences, decide_eq_true_eq]
    tauto

theorem nodup_keysInOrder (entry : Option SchemaEntry) {keys : List String} (h : keys.Nodup) :
    (keysInOrder entry keys).Nodup := by
  cases entry with
  | none => exact (Text.sorted_perm keys).nodup_iff.2 h
  | some e =>
    refine List.nodup_append.2 ⟨(Text.firstOccurrences_nodup _).filter _, h.filter _, fun a ha b hb hab => ?_⟩
    have horder : a ∈ e.keyOrder := Text.mem_firstOccurrences.1 (List.mem_of_mem_filter ha)
    have hnot := (List.mem_filter.1 hb).2
    rw [← hab] at hnot
    exact of_decide_eq_true hnot horder

/-- Keys in order stay in order when some are dropped. -/
theorem keysInOrder_filter (entry : Option SchemaEntry) (keys : List String) (p : String → Bool) :
    keysInOrder entry ((keysInOrder entry keys).filter p) = (keysInOrder entry keys).filter p := by
  cases entry with
  | none => exact List.mergeSort_of_pairwise ((Text.sorted_pairwise keys).filter p)
  | some e =>
    have hmem : ∀ key, key ∈ (keysInOrder (some e) keys).filter p ↔ key ∈ keys ∧ p key = true := fun key => by
      rw [List.mem_filter, mem_keysInOrder]
    have hfirst : (Text.firstOccurrences e.keyOrder).filter (· ∈ (keysInOrder (some e) keys).filter p) =
        ((Text.firstOccurrences e.keyOrder).filter (· ∈ keys)).filter p := by
      rw [List.filter_filter]
      refine List.filter_congr fun key _ => ?_
      simp only [hmem, Bool.decide_and, Bool.decide_eq_true, Bool.and_comm]
    have hrest : ((keysInOrder (some e) keys).filter p).filter (· ∉ e.keyOrder) =
        (keys.filter (· ∉ e.keyOrder)).filter p := by
      have hnone : ((Text.firstOccurrences e.keyOrder).filter (· ∈ keys)).filter (· ∉ e.keyOrder) = [] := by
        rw [List.filter_eq_nil_iff]
        intro key hkey
        simpa using Text.mem_firstOccurrences.1 (List.mem_of_mem_filter hkey)
      rw [List.filter_comm, keysInOrder, List.filter_append, hnone, List.nil_append, List.filter_filter (l := keys)]
      simp
    rw [keysInOrder, hfirst, hrest, ← List.filter_append]
    rfl

namespace Repair

open Mapping

variable (r : Registry) (config : Config) {m n : Mapping}

theorem keys_sortKeys (m : Mapping) : (sortKeys r config m).keys = keysInOrder (r.entryOf? config m) m.keys := by
  unfold sortKeys
  cases r.entryOf? config m with
  | some e => exact keys_sortBy e.keyOrder m
  | none =>
    refine (Dictionary.keys_select m _).trans (List.filter_eq_self.2 fun key hkey => ?_)
    exact decide_eq_true ((Text.sorted_perm _).mem_iff.1 hkey)

theorem keys_dropUnknown (m : Mapping) :
    (dropUnknown r config m).keys = m.keys.filter fun key => (r.entryOf? config m).all (key ∈ ·.schema.fieldNames) := by
  unfold dropUnknown
  cases r.entryOf? config m with
  | some e => exact Dictionary.keys_filter (· ∈ e.schema.fieldNames) m
  | none => exact (List.filter_eq_self.2 fun _ _ => rfl).symm

theorem keys_listScalars (m : Mapping) : (listScalars r config m).keys = m.keys := by
  rw [listScalars_eq_map, Dictionary.keys_map fun k v => if k ∈ listFields (r.entryOf? config m) then listed v else v]

/-- Keys in order are not moved. -/
theorem sortKeys_eq_self (hm : m.keys.Nodup) (h : keysInOrder (r.entryOf? config m) m.keys = m.keys) :
    sortKeys r config m = m :=
  Dictionary.ext_keys (by rw [keys_sortKeys, h]; exact hm) ((keys_sortKeys r config m).trans h)
    (get?_sortKeys r config m)

theorem listScalars_eq_self (h : ∀ e ∈ m, e.1 ∈ listFields (r.entryOf? config m) → listed e.2 = e.2) :
    listScalars r config m = m := by
  rw [listScalars_eq_map, map_eq_self_iff]
  intro e he
  dsimp only
  split
  next hkey => rw [h e he hkey]
  next => rfl

theorem dropUnknown_eq_self (h : ∀ e, r.entryOf? config m = some e → ∀ key ∈ m.keys, key ∈ e.schema.fieldNames) :
    dropUnknown r config m = m := by
  unfold dropUnknown
  split
  next e he => exact List.filter_eq_self.2 fun f hf => decide_eq_true (h e he f.1 (List.mem_map_of_mem hf))
  next => rfl

end Repair

/-- The usual repairs find nothing to do. -/
structure Mapping.IsRepaired (dropsUnknown : Bool) (r : Registry) (config : Config) (m : Mapping) : Prop where
  nodup : m.keys.Nodup
  listed : ∀ e ∈ m, e.1 ∈ Repair.listFields (r.entryOf? config m) → Mapping.listed e.2 = e.2
  ordered : keysInOrder (r.entryOf? config m) m.keys = m.keys
  known : dropsUnknown = true → ∀ e, r.entryOf? config m = some e → ∀ key ∈ m.keys, key ∈ e.schema.fieldNames

namespace RepairPlan

open Mapping Repair

variable {dropsUnknown : Bool} {r : Registry} {config : Config} {m : Mapping}

theorem apply_eq_self (h : m.IsRepaired dropsUnknown r config) : apply ⟨dropsUnknown, [], []⟩ r config m = m := by
  rw [apply_usual, listScalars_eq_self r config h.listed, sortKeys_eq_self r config h.nodup h.ordered]
  split
  next hdrops => exact dropUnknown_eq_self r config (h.known hdrops)
  next => rfl

/-- The keys that are left, in order. -/
theorem keys_apply (dropsUnknown : Bool) (r : Registry) (config : Config) (m : Mapping) :
    (apply ⟨dropsUnknown, [], []⟩ r config m).keys =
      (keysInOrder (r.entryOf? config (listScalars r config m)) m.keys).filter fun key =>
        !dropsUnknown || (r.entryOf? config (listScalars r config m)).all (key ∈ ·.schema.fieldNames) := by
  have hentry : r.entryOf? config (sortKeys r config (listScalars r config m)) =
      r.entryOf? config (listScalars r config m) := Registry.entryOf?_congr (get?_sortKeys r config _ "type")
  rw [apply_usual]
  cases dropsUnknown
  · simp [keys_sortKeys, keys_listScalars]
  · simp [keys_dropUnknown, hentry, keys_sortKeys, keys_listScalars]

theorem nodup_keys_apply (hm : m.keys.Nodup) (dropsUnknown : Bool) (r : Registry) (config : Config) :
    (apply ⟨dropsUnknown, [], []⟩ r config m).keys.Nodup := by
  rw [keys_apply]
  exact (nodup_keysInOrder _ hm).filter _

/-- Without the last repair no key is lost. -/
theorem keys_apply_perm (hm : m.keys.Nodup) (r : Registry) (config : Config) :
    (apply ⟨false, [], []⟩ r config m).keys.Perm m.keys := by
  refine (List.perm_ext_iff_of_nodup (nodup_keys_apply hm false r config) hm).2 fun key => ?_
  rw [keys_apply, List.mem_filter, mem_keysInOrder]
  simp

/-- A type that is made a list is no type any more, and without a type only the tags are made lists. -/
theorem listFields_apply_subset {key : String}
    (h : key ∈ listFields (r.entryOf? config (listScalars r config m))) : key ∈ listFields (r.entryOf? config m) := by
  by_cases hkeeps : KeepsType r config m
  · rwa [hkeeps.entryOf?_eq] at h
  · obtain ⟨e, he, hreference⟩ : ∃ e, r.entryOf? config m = some e ∧ "type" ∈ e.referenceFields := by
      simpa [KeepsType] using hkeeps
    have hnone : r.entryOf? config (listScalars r config m) = none := by
      have hlist : ∀ v, (listScalars r config m).get? "type" = some v → v.isString = false := fun v hv => by
        rw [get?_listScalars, Option.map_eq_some_iff] at hv
        obtain ⟨w, -, rfl⟩ := hv
        rw [if_pos (type_mem_listFields.2 ⟨e, he, hreference⟩)]
        cases w <;> rfl
      rw [Registry.entryOf?, declaredType?, text?]
      split
      next s hs => exact absurd (hlist _ hs) (by simp [Value.isString])
      next => rfl
    rw [hnone] at h
    rw [he, mem_listFields]
    exact .inl (List.mem_singleton.1 h)

/-- What the usual repairs have repaired, they leave as it is. -/
theorem isRepaired_apply (hm : m.keys.Nodup) (dropsUnknown : Bool) (r : Registry) (config : Config) :
    (apply ⟨dropsUnknown, [], []⟩ r config m).IsRepaired dropsUnknown r config := by
  have hentry : r.entryOf? config (apply ⟨dropsUnknown, [], []⟩ r config m) =
      r.entryOf? config (listScalars r config m) := Registry.entryOf?_congr (get?_type_apply dropsUnknown r config m)
  refine ⟨nodup_keys_apply hm dropsUnknown r config, fun f hf hkey => ?_, ?_, fun hdrops e he key hkey => ?_⟩
  · rw [hentry] at hkey
    have hmem := mem_of_mem_apply dropsUnknown r config m hf
    rw [listScalars_eq_map] at hmem
    obtain ⟨g, -, rfl⟩ := List.mem_map.1 hmem
    dsimp only at hkey ⊢
    rw [if_pos (listFields_apply_subset hkey), listed_listed]
  · rw [hentry, keys_apply, keysInOrder_filter]
  · rw [hentry] at he
    rw [keys_apply, he, hdrops] at hkey
    simpa using (List.mem_filter.1 hkey).2

end RepairPlan

end NoteVault
