import NoteVault.Proofs.Dictionary
import NoteVault.Proofs.Validation
import NoteVault.Proofs.Value.Links
import NoteVault.Repair

/-!
What the usual repairs leave under each key: a text in a field of lists becomes a list, keys that the type does not
know may go, and everything else is as it was, in another order.
-/
namespace NoteVault

namespace Mapping

open Dictionary (get? keys select)

theorem listed_listed (v : Value) : listed (listed v) = listed v := by cases v <;> rfl

theorem listAll_eq_map (names : List String) (m : Mapping) :
    Repair.listAll names m = m.map fun (k, v) => (k, if k ∈ names then listed v else v) :=
  foldl_adjust listed_listed names m

theorem sortAll_eq_select (m : Mapping) : m.sortAll = select m (Text.sorted m.keys) := rfl

theorem sortBy_eq_select (order : List String) (m : Mapping) :
    m.sortBy order = select m (Text.firstOccurrences order) ++ m.filter fun (key, _) => key ∉ order := rfl

theorem keys_sortBy (order : List String) (m : Mapping) :
    (m.sortBy order).keys = (Text.firstOccurrences order).filter (· ∈ m.keys) ++ m.keys.filter (· ∉ order) := by
  rw [sortBy_eq_select, keys, List.map_append]
  exact congrArg₂ (· ++ ·) (Dictionary.keys_select m _) (Dictionary.keys_filter (· ∉ order) m)

theorem get?_sortAll (m : Mapping) (key : String) : m.sortAll.get? key = m.get? key := by
  rw [sortAll_eq_select, Dictionary.get?_select]
  split
  · rfl
  next hnot => exact (Dictionary.get?_eq_none_iff.2 fun hk => hnot ((Text.sorted_perm _).mem_iff.2 hk)).symm

theorem get?_sortBy (order : List String) (m : Mapping) (key : String) : (m.sortBy order).get? key = m.get? key := by
  rw [sortBy_eq_select, Dictionary.get?_append, Dictionary.get?_select,
    Dictionary.get?_filter (fun key => key ∉ order)]
  by_cases h : key ∈ order <;> simp [h]

theorem get?_restrict (names : List String) (m : Mapping) (key : String) :
    (m.restrict names).get? key = if key ∈ names then m.get? key else none := by
  rw [restrict, Dictionary.get?_filter (fun key => key ∈ names)]
  simp

theorem declaredType?_congr {m n : Mapping} (h : m.get? "type" = n.get? "type") :
    m.declaredType? = n.declaredType? := by
  rw [declaredType?, declaredType?, text?, text?, h]

end Mapping

namespace Registry

theorem entryOf?_congr {r : Registry} {config : Config} {m n : Mapping} (h : m.get? "type" = n.get? "type") :
    r.entryOf? config m = r.entryOf? config n := by
  rw [entryOf?, entryOf?, Mapping.declaredType?_congr h]

end Registry

namespace Repair

open Mapping

variable (r : Registry) (config : Config) (m : Mapping)

theorem listScalars_eq_map :
    listScalars r config m =
      m.map fun (k, v) => (k, if k ∈ listFields (r.entryOf? config m) then listed v else v) :=
  listAll_eq_map _ m

theorem get?_listScalars (key : String) :
    (listScalars r config m).get? key =
      (m.get? key).map fun v => if key ∈ listFields (r.entryOf? config m) then listed v else v := by
  rw [listScalars_eq_map, Dictionary.get?_map fun k v => if k ∈ listFields (r.entryOf? config m) then listed v else v]

theorem get?_sortKeys (key : String) : (sortKeys r config m).get? key = m.get? key := by
  unfold sortKeys
  split
  · exact get?_sortBy _ m key
  · exact get?_sortAll m key

theorem mem_of_mem_sortKeys {e : String × Value} (h : e ∈ sortKeys r config m) : e ∈ m := by
  unfold sortKeys at h
  split at h
  · obtain h | h := List.mem_append.1 h
    · exact Dictionary.mem_of_mem_select h
    · exact List.mem_of_mem_filter h
  · exact Dictionary.mem_of_mem_select h

theorem mem_of_mem_dropUnknown {e : String × Value} (h : e ∈ dropUnknown r config m) : e ∈ m := by
  unfold dropUnknown at h
  split at h
  · exact List.mem_of_mem_filter h
  · exact h

theorem get?_dropUnknown (key : String) :
    (dropUnknown r config m).get? key =
      if ∀ e, r.entryOf? config m = some e → key ∈ e.schema.fieldNames then m.get? key else none := by
  unfold dropUnknown
  split
  next e he => simp [get?_restrict, he]
  next he => simp [he]

theorem mem_listFields {e : SchemaEntry} {name : String} :
    name ∈ listFields (some e) ↔
      name = "tags" ∨ name ∈ e.referenceFields ∨ ∃ f ∈ e.schema.fields, f.isArray = true ∧ f.name = name := by
  simp [listFields, and_assoc]

/-- The type is made a list only where it is a reference. -/
theorem type_mem_listFields {entry : Option SchemaEntry} :
    "type" ∈ listFields entry ↔ ∃ e, entry = some e ∧ "type" ∈ e.referenceFields := by
  cases entry with
  | none => simp [listFields]
  | some e =>
    have harray : ¬ ∃ f ∈ e.schema.fields, f.isArray = true ∧ f.name = "type" := by
      rintro ⟨f, hf, harray, hname⟩
      rw [Field.isArray, e.schema.type_eq_literal hf hname] at harray
      exact absurd harray (by simp [FieldType.kind])
    simp [mem_listFields, harray]

/-- The type is not among the references of the type that is declared. -/
def KeepsType (r : Registry) (config : Config) (m : Mapping) : Prop :=
  ∀ e, r.entryOf? config m = some e → "type" ∉ e.referenceFields

variable {r config m}

theorem KeepsType.get?_type (h : KeepsType r config m) : (listScalars r config m).get? "type" = m.get? "type" := by
  have hnot : "type" ∉ listFields (r.entryOf? config m) := fun hmem =>
    have ⟨e, he, hreference⟩ := type_mem_listFields.1 hmem
    h e he hreference
  rw [get?_listScalars]
  simp [hnot]

theorem KeepsType.entryOf?_eq (h : KeepsType r config m) :
    r.entryOf? config (listScalars r config m) = r.entryOf? config m := Registry.entryOf?_congr h.get?_type

end Repair

namespace RepairPlan

open Repair

variable (dropsUnknown : Bool) (r : Registry) (config : Config) (m : Mapping)

/-- The usual repairs, of which the last one may be left out. -/
theorem apply_usual :
    apply ⟨dropsUnknown, [], []⟩ r config m =
      if dropsUnknown then dropUnknown r config (sortKeys r config (listScalars r config m))
      else sortKeys r config (listScalars r config m) := by
  cases dropsUnknown <;> rfl

/-- A key that is not dropped holds what the first repair leaves there. -/
theorem get?_apply (key : String) :
    (apply ⟨dropsUnknown, [], []⟩ r config m).get? key =
      if dropsUnknown → ∀ e, r.entryOf? config (listScalars r config m) = some e → key ∈ e.schema.fieldNames then
        (listScalars r config m).get? key else none := by
  rw [apply_usual]
  have hentry : r.entryOf? config (sortKeys r config (listScalars r config m)) =
      r.entryOf? config (listScalars r config m) := Registry.entryOf?_congr (get?_sortKeys r config _ "type")
  cases dropsUnknown
  · simp [get?_sortKeys]
  · simp [get?_dropUnknown, hentry, get?_sortKeys]

/-- The repairs behind the first one move entries and drop them, and change none. -/
theorem mem_of_mem_apply {e : String × Value} (h : e ∈ apply ⟨dropsUnknown, [], []⟩ r config m) :
    e ∈ listScalars r config m := by
  rw [apply_usual] at h
  split at h
  · exact mem_of_mem_sortKeys r config _ (mem_of_mem_dropUnknown r config _ h)
  · exact mem_of_mem_sortKeys r config _ h

/-- What holds of all values, and of the list of a text, holds of all values that the usual repairs leave. -/
theorem forall_mem_apply {P : String → Value → Prop} (hlisted : ∀ k v, P k v → P k (Mapping.listed v)) {m : Mapping}
    (h : ∀ e ∈ m, P e.1 e.2) : ∀ e ∈ apply ⟨dropsUnknown, [], []⟩ r config m, P e.1 e.2 := by
  intro e he
  have hmem := mem_of_mem_apply dropsUnknown r config m he
  rw [listScalars_eq_map] at hmem
  obtain ⟨f, hf, rfl⟩ := List.mem_map.1 hmem
  dsimp only
  split
  · exact hlisted _ _ (h f hf)
  · exact h f hf

theorem get?_type_apply :
    (apply ⟨dropsUnknown, [], []⟩ r config m).get? "type" = (listScalars r config m).get? "type" := by
  rw [get?_apply, if_pos fun _ e _ => e.schema.type_mem_fieldNames]

end RepairPlan

end NoteVault
