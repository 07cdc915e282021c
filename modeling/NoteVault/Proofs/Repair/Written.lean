import NoteVault.Proofs.Note.Parse
import NoteVault.Proofs.Repair.Keys

/-!
Front matter after the safe repairs, as it is written and read back: under each key stands what the first repair
leaves there, since links are read as what they were written for.
-/
namespace NoteVault

namespace Mapping

open Value (IsNormal)

theorem isNormal_listed {v : Value} (h : v.IsNormal) : (listed v).IsNormal := by
  cases v with
  | str s => exact Value.isNormal_list.2 (List.forall_mem_singleton.2 h)
  | _ => exact h

/-- References that are written as links are read as they were. -/
theorem normalEntries_linkReferences {m : Mapping} (h : ∀ e ∈ m, e.2.IsNormal) (fields : List String) :
    Value.normalEntries (m.linkReferences fields) = m := by
  rw [linkReferences_eq_map, Value.normalEntries_eq_map, List.map_map, map_eq_self_iff]
  intro e he
  simp only [Function.comp]
  split
  · rw [(h e he).normal_asLinks]
  · rw [h e he]

end Mapping

namespace Note

/-- All values of front matter that is read are in normal form. -/
theorem isNormal_of_parse {content : String} {note : Note} {m : Mapping} (h : parse content = .ok note)
    (hm : note.data = some m) : ∀ e ∈ m, e.2.IsNormal := by
  obtain ⟨_, entries, -, -, -, rfl⟩ := exists_of_parse h hm
  exact Value.entriesAreNormal_normal entries

end Note

namespace RepairPlan

open Mapping Repair

/-- What the usual repairs leave is in normal form. -/
theorem isNormal_apply {m : Mapping} (h : ∀ e ∈ m, e.2.IsNormal) (dropsUnknown : Bool) (r : Registry)
    (config : Config) :
    ∀ e ∈ apply ⟨dropsUnknown, [], []⟩ r config m, e.2.IsNormal :=
  forall_mem_apply dropsUnknown r config (P := fun _ => Value.IsNormal) (fun _ _ => isNormal_listed) h

end RepairPlan

end NoteVault
