import NoteVault.Proofs.Dictionary
import NoteVault.Repair.Strategy

/-!
Keys that are given new names. No name is given that is there already, so the keys that keep their names keep their
values. The values of all keys are left in their order exactly where different keys get different names; of keys that
get the same name the last one gives the value.
-/
namespace NoteVault

namespace Mapping

open Dictionary (get? keys values)

/-- A key is renamed to a name which is not there yet. -/
def Renames (names : Dictionary String) (m : Mapping) (key name : String) : Prop :=
  key ∈ m.keys ∧ names.get? key = some name ∧ name ∉ m.keys

instance (names : Dictionary String) (m : Mapping) (key name : String) : Decidable (Renames names m key name) :=
  inferInstanceAs (Decidable (_ ∧ _))

/-- The name of a key after all keys have been renamed. -/
def newName (names : Dictionary String) (m : Mapping) (key : String) : String :=
  match names.get? key with
  | some name => if m.has name then key else name
  | none => key

theorem rename_eq (names : Dictionary String) (m : Mapping) :
    m.rename names = Dictionary.ofEntries (m.map fun e => (newName names m e.1, e.2)) := rfl

variable {names : Dictionary String} {m : Mapping} {key name : String}

theorem newName_of_renames (h : Renames names m key name) : newName names m key = name := by
  obtain ⟨-, hname, hnew⟩ := h
  have hhas : m.has name = false := Bool.eq_false_iff.2 fun hhas => hnew (Dictionary.has_iff.1 hhas)
  simp [newName, hname, hhas]

theorem newName_of_not_renames (hkey : key ∈ m.keys) (h : ∀ name, ¬ Renames names m key name) :
    newName names m key = key := by
  unfold newName
  cases hname : names.get? key with
  | none => rfl
  | some name =>
    have hthere : name ∈ m.keys := by
      by_contra hnew
      exact h name ⟨hkey, hname, hnew⟩
    exact if_pos (Dictionary.has_iff.2 hthere)

/-- A key keeps its name or gets one that was not there. -/
theorem newName_cases (names : Dictionary String) (hkey : key ∈ m.keys) :
    (newName names m key = key ∧ ∀ name, ¬ Renames names m key name) ∨ Renames names m key (newName names m key) := by
  by_cases h : ∃ name, Renames names m key name
  · obtain ⟨name, hname⟩ := h
    rw [newName_of_renames hname]
    exact .inr hname
  · have hnot := not_exists.1 h
    exact .inl ⟨newName_of_not_renames hkey hnot, hnot⟩

/-- Only keys that are renamed to it have a name that was not there. -/
theorem newName_eq_iff (hkey : key ∈ m.keys) (hnew : name ∉ m.keys) :
    newName names m key = name ↔ Renames names m key name := by
  constructor
  · rintro rfl
    obtain ⟨hsame, -⟩ | hrenames := newName_cases names hkey
    · rw [hsame] at hnew
      exact absurd hkey hnew
    · exact hrenames
  · exact newName_of_renames

/-- Only a key itself has a name that was there. -/
theorem eq_of_newName {other : String} (hkey : key ∈ m.keys) (hother : other ∈ m.keys)
    (h : newName names m other = key) : other = key := by
  obtain ⟨hsame, -⟩ | ⟨-, -, hnew⟩ := newName_cases names hother
  · exact hsame.symm.trans h
  · rw [h] at hnew
    exact absurd hkey hnew

/-- Different keys get different names. -/
def RenamesApart (names : Dictionary String) (m : Mapping) : Prop :=
  ∀ key other name, Renames names m key name → Renames names m other name → key = other

theorem newName_injective (h : RenamesApart names m) {other : String} (hkey : key ∈ m.keys) (hother : other ∈ m.keys)
    (hsame : newName names m key = newName names m other) : key = other := by
  obtain ⟨hkept, -⟩ | hrenames := newName_cases names hkey
  · rw [hkept] at hsame
    exact (eq_of_newName hkey hother hsame.symm).symm
  · obtain ⟨hkept, -⟩ | hrenames' := newName_cases names hother
    · rw [hkept] at hsame
      exact eq_of_newName hother hkey hsame
    · rw [hsame] at hrenames
      exact h key other _ hrenames hrenames'

theorem keys_map_newName (names : Dictionary String) (m : Mapping) :
    keys (m.map fun e => (newName names m e.1, e.2)) = m.keys.map (newName names m) := by
  simp [keys, Function.comp_def]

/-- New names are all different exactly where different keys get different names. -/
theorem nodup_newName_iff (hm : m.keys.Nodup) : (m.keys.map (newName names m)).Nodup ↔ RenamesApart names m := by
  constructor
  · intro h key other name hkey hother
    apply List.inj_on_of_nodup_map h hkey.1 hother.1
    rw [newName_of_renames hkey, newName_of_renames hother]
  · intro h
    exact hm.map_on fun key hkey other hother => newName_injective h hkey hother

theorem rename_of_apart (hm : m.keys.Nodup) (h : RenamesApart names m) :
    m.rename names = m.map fun e => (newName names m e.1, e.2) := by
  rw [rename_eq]
  apply Dictionary.ofEntries_of_nodup
  rw [keys_map_newName]
  exact (nodup_newName_iff hm).2 h

/-- Names that are given twice are keys that are lost. -/
theorem length_rename_lt (hm : m.keys.Nodup) (h : ¬ RenamesApart names m) : (m.rename names).length < m.length := by
  have hkeys : keys (m.rename names) = Text.firstOccurrences (m.keys.map (newName names m)) := by
    rw [rename_eq, Dictionary.keys_ofEntries, ← keys_map_newName]
    rfl
  have hlt := Text.length_firstOccurrences_lt fun hnodup => h ((nodup_newName_iff hm).1 hnodup)
  rw [← hkeys] at hlt
  simpa [keys] using hlt

theorem mem_keys_rename : key ∈ keys (m.rename names) ↔ ∃ old ∈ m.keys, newName names m old = key := by
  rw [rename_eq, Dictionary.keys_ofEntries, Text.mem_firstOccurrences]
  simp [keys]

/-- A key that keeps its name keeps its value. -/
theorem get?_rename_kept (hm : m.keys.Nodup) {value : Value} (hvalue : m.get? key = some value)
    (h : ∀ name, ¬ Renames names m key name) : get? (m.rename names) key = some value := by
  have hmem := Dictionary.mem_of_get? hvalue
  have hkey : key ∈ m.keys := List.mem_map_of_mem hmem
  rw [rename_eq]
  apply Dictionary.get?_ofEntries_of_forall
  · refine List.mem_map.2 ⟨(key, value), hmem, ?_⟩
    rw [newName_of_not_renames hkey h]
  · rw [List.forall_mem_map]
    rintro ⟨other, w⟩ hother hsame
    obtain rfl := eq_of_newName hkey (List.mem_map_of_mem hother) hsame
    have hw := Dictionary.get?_of_mem hm hother
    exact Option.some.inj (hw.symm.trans hvalue)

/-- A new name has the value of the last key that gets it. -/
theorem get?_rename_new (hnew : name ∉ m.keys) : get? (m.rename names) name =
    ((m.filter fun e => Renames names m e.1 name).getLast?).map (·.2) := by
  have hfilter : m.filter (fun e => newName names m e.1 = name) = m.filter fun e => Renames names m e.1 name := by
    refine List.filter_congr fun e he => ?_
    rw [decide_eq_decide]
    exact newName_eq_iff (List.mem_map_of_mem he) hnew
  rw [rename_eq, Dictionary.get?_ofEntries, List.filter_map, List.getLast?_map, Option.map_map, ← hfilter]
  rfl

/-- The keys that are left are those that keep their names and the new names. -/
theorem mem_keys_rename_iff : key ∈ keys (m.rename names) ↔
    (key ∈ m.keys ∧ ∀ name, ¬ Renames names m key name) ∨ ∃ old, Renames names m old key := by
  rw [mem_keys_rename]
  constructor
  · rintro ⟨old, hold, rfl⟩
    obtain ⟨hsame, hnot⟩ | hrenames := newName_cases names hold
    · rw [hsame]
      exact .inl ⟨hold, hnot⟩
    · exact .inr ⟨old, hrenames⟩
  · rintro (⟨hkey, hnot⟩ | ⟨old, hrenames⟩)
    · exact ⟨key, hkey, newName_of_not_renames hkey hnot⟩
    · exact ⟨old, hrenames.1, newName_of_renames hrenames⟩

/-- A key is renamed only to a name that is not there, and all other keys keep their values. The values are left as they
were, in their order, where no name is given to different keys; where one is, keys are lost, and the last one of them
gives the value. -/
theorem rename_keeps_values (names : Dictionary String) {m : Mapping} (hm : m.keys.Nodup) :
    let renamed := m.rename names
    (∀ key value, m.get? key = some value → (∀ name, ¬ Renames names m key name) → renamed.get? key = some value) ∧
    (∀ key, key ∈ keys renamed ↔
      (key ∈ m.keys ∧ ∀ name, ¬ Renames names m key name) ∨ ∃ old, Renames names m old key) ∧
    (∀ old name, Renames names m old name →
      renamed.get? name = ((m.filter fun e => Renames names m e.1 name).getLast?).map (·.2)) ∧
    (RenamesApart names m → keys renamed = m.keys.map (newName names m) ∧ values renamed = m.values) ∧
    (¬ RenamesApart names m → renamed.length < m.length) := by
  intro renamed
  refine ⟨fun key value hvalue hnot => get?_rename_kept hm hvalue hnot, fun key => mem_keys_rename_iff, ?_, ?_, ?_⟩
  · intro old name hrenames
    exact get?_rename_new hrenames.2.2
  · intro hapart
    have hrenamed : renamed = m.map fun e => (newName names m e.1, e.2) := rename_of_apart hm hapart
    rw [hrenamed, keys_map_newName]
    exact ⟨rfl, by simp [values, Function.comp_def]⟩
  · exact length_rename_lt hm

/-- Two keys get new names. The third one keeps its own, since its new name was there before that. -/
theorem rename_keeps_values_chain :
    let names : Dictionary String := [("a", "b"), ("b", "c"), ("d", "e")]
    let m : Mapping := [("b", .int 1), ("a", .int 2), ("d", .int 3)]
    m.keys.Nodup ∧ RenamesApart names m ∧ keys (m.rename names) = ["c", "a", "e"] ∧ values (m.rename names) = m.values := by
  intro names m
  have hm : m.keys.Nodup := by decide
  have happly := rename_keeps_values names hm
  have hapart : RenamesApart names m := (nodup_newName_iff hm).1 (by decide)
  obtain ⟨hkeys, hvalues⟩ := happly.2.2.2.1 hapart
  exact ⟨hm, hapart, hkeys, hvalues⟩

/-- One new name for two keys: the value of the first one is lost. -/
theorem rename_loses_value :
    let names : Dictionary String := [("a", "x"), ("b", "x")]
    let m : Mapping := [("a", .int 1), ("b", .int 2)]
    m.rename names = [("x", .int 2)] ∧ (m.rename names).length ≠ m.length ∧ values (m.rename names) ≠ m.values := by
  decide

end Mapping

end NoteVault
