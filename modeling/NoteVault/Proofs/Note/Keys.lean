import NoteVault.Proofs.Dictionary
import NoteVault.Proofs.Note.Parse
import NoteVault.Proofs.Yaml.Node.Loaded
import NoteVault.Proofs.Yaml.Written

/-!
The shape of front matter that is read: every key stands there once, tuples are items of lists only, and all objects in
fields are sets.
-/
namespace NoteVault

namespace Yaml.Node

open Value (IsFieldValue asWritten)

theorem isFieldValue_list {items : List Value} (h : ∀ v ∈ items, ∀ s, v.normal.asWritten = .str s → v.normal = .str s)
    (inside : Bool) (place : Place) :
    (if inside = true then Value.shared place (.list items) else .list items).normal.IsFieldValue := by
  have hitems : (Value.list (items.map Value.normal)).IsFieldValue := List.forall_mem_map.2 h
  split
  · rwa [Value.normal_sharedList]
  · rwa [Value.normal_list]

theorem isFieldValue_simple {v : Value} (h : isSimple v = true) : v.normal.IsFieldValue := by
  cases v <;> trivial

/-- A node stands for what a field may hold. -/
theorem isFieldValue_valueFrom (keys : KeyTexts) (hidden : List Nat) (fuel : Nat) (inside : Bool) (n : Node) :
    (valueFrom keys hidden fuel inside n).normal.IsFieldValue := by
  induction fuel generalizing inside n with
  | zero => trivial
  | succ fuel ih =>
    unfold valueFrom
    dsimp only
    split
    · refine isFieldValue_list (fun v hv s hs => ?_) _ _
      split at hv
      · obtain ⟨m, -, rfl⟩ := List.mem_map.1 hv
        exact (ih _ m).eq_str hs
      · cases hv
    · split
      · rw [Value.normal_sharedMap]
        trivial
      · rw [Value.normal_map]
        trivial
    · split <;> trivial
    iterate 2
      · refine isFieldValue_list (fun v hv s hs => ?_) _ _
        obtain ⟨i, hi, rfl⟩ := List.mem_mapIdx.1 hv
        split at hs <;> cases hs
    · split
      · split <;> trivial
      · split <;> trivial
      next v _ _ hv => exact isFieldValue_simple (isSimple_scalarValue hv)
      · trivial

/-- The entries of a mapping are given one after another. -/
theorem entries_valueFrom {keys : KeyTexts} {hidden : List Nat} {fuel : Nat} {inside : Bool} {n : Node}
    {entries : Mapping}
    (h : Note.mappingOf? (valueFrom keys hidden fuel inside n) = some entries) :
    ∃ given : List (String × Value), entries = Dictionary.ofEntries given ∧ ∀ e ∈ given, e.2.normal.IsFieldValue := by
  cases fuel with
  | zero => exact ⟨[], (Option.some.inj h).symm, by simp⟩
  | succ fuel =>
    unfold valueFrom at h
    dsimp only at h
    split at h
    case h_2 =>
      split at h <;>
        · obtain rfl := Option.some.inj h
          refine ⟨_, rfl, fun e he => ?_⟩
          obtain ⟨i, hi, rfl⟩ := List.mem_mapIdx.1 he
          exact isFieldValue_valueFrom _ _ _ _ _
    case h_6 =>
      split at h
      · split at h <;> cases h
      · split at h <;> cases h
      next v _ _ hv =>
        have hsimple := isSimple_scalarValue hv
        cases v with
        | null => exact ⟨[], (Option.some.inj h).symm, by simp⟩
        | map _ => cases hsimple
        | shared _ _ => cases hsimple
        | _ => cases h
      · exact ⟨[], (Option.some.inj h).symm, by simp⟩
    all_goals
      split at h <;> cases h

end Yaml.Node

namespace Note

theorem entries_of_read {header : String} {v : Value} {entries : Mapping} (h : Yaml.read header = .ok v)
    (hentries : mappingOf? v = some entries) :
    ∃ given : List (String × Value), entries = Dictionary.ofEntries given ∧ ∀ e ∈ given, e.2.normal.IsFieldValue := by
  unfold Yaml.read at h
  cases hroot : Yaml.Node.ofString? header with
  | error e => simp [hroot, bind, Except.bind] at h
  | ok root =>
    cases root with
    | none =>
      obtain rfl : Value.null = v := by simpa [hroot, bind, Except.bind, pure, Except.pure] using h
      exact ⟨[], (Option.some.inj hentries).symm, by simp⟩
    | some root =>
      simp only [hroot, bind, Except.bind, Yaml.Node.toValue, pure, Except.pure] at h
      repeat' split at h
      all_goals cases h
      exact Yaml.Node.entries_valueFrom hentries

variable {content : String} {note : Note} {m : Mapping}

/-- Front matter that is read holds every key once. -/
theorem keys_nodup_of_parse (h : parse content = .ok note) (hm : note.data = some m) : m.keys.Nodup := by
  obtain ⟨_, entries, -, hread, hentries, rfl⟩ := exists_of_parse h hm
  obtain ⟨given, rfl, -⟩ := entries_of_read hread hentries
  rw [Value.normalEntries_eq_map, Dictionary.keys_map fun _ => Value.normal, Dictionary.keys_ofEntries]
  exact Text.firstOccurrences_nodup _

/-- Each key holds what a field may hold. -/
theorem isFieldValue_of_parse (h : parse content = .ok note) (hm : note.data = some m) : ∀ e ∈ m, e.2.IsFieldValue := by
  obtain ⟨_, entries, -, hread, hentries, rfl⟩ := exists_of_parse h hm
  obtain ⟨given, rfl, hgiven⟩ := entries_of_read hread hentries
  rw [Value.normalEntries_eq_map, List.forall_mem_map]
  exact fun e he => hgiven e (Dictionary.mem_of_mem_ofEntries he)

end Note

end NoteVault
