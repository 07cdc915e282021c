import NoteVault.Proofs.Repair.Order
import NoteVault.Proofs.Schema.Conformance
import NoteVault.Proofs.Validation.Reasons

/-!
What the usual repairs take away: the keys that front matter is told of, and with them the issue that tells of them.
Tags that are a text are made a list whether or not keys are taken away.
-/
namespace NoteVault

theorem Mapping.listed_ne_str (v : Value) (s : String) : listed v ≠ .str s := by cases v <;> exact nofun

theorem Registry.Tells.tags_text {r : Registry} {config : Config} {m : Mapping} {i : Issue} (h : r.Tells config m i)
    (hcode : i.code = .tagsNotArray) : ∃ s, m.get? "tags" = some (.str s) := by
  have hreason := h.reason
  rw [hcode] at hreason
  obtain ⟨e, -, f, -, hi⟩ := hreason
  obtain ⟨hname, -, s, hs⟩ := (Field.isTold_of_issue? hi).textTags.1 hcode
  rw [hname, Dictionary.get?_put, if_neg (by decide)] at hs
  exact ⟨s, hs⟩

namespace RepairPlan

open Mapping Repair Registry

/-- The keys that repairs take away. -/
def dropped (p : RepairPlan) (r : Registry) (config : Config) (m : Mapping) : List String :=
  m.keys.filter (· ∉ (p.apply r config m).keys)

section
variable (dropsUnknown : Bool) (r : Registry) (config : Config) (m : Mapping)

theorem tags_apply_ne_str (s : String) : (apply ⟨dropsUnknown, [], []⟩ r config m).get? "tags" ≠ some (.str s) := by
  have htags : "tags" ∈ listFields (r.entryOf? config m) := by
    cases r.entryOf? config m <;> exact List.mem_cons_self
  intro h
  rw [get?_apply] at h
  split at h
  · rw [get?_listScalars] at h
    obtain ⟨v, -, hv⟩ := Option.map_eq_some_iff.1 h
    rw [if_pos htags] at hv
    exact listed_ne_str v s hv
  · cases h

theorem code_apply_ne_tagsNotArray {i : Issue} (hi : i ∈ r.validate config (apply ⟨dropsUnknown, [], []⟩ r config m)) :
    i.code ≠ .tagsNotArray := by
  intro hcode
  obtain ⟨s, hs⟩ := (tells_of_mem_validate hi).tags_text hcode
  exact tags_apply_ne_str dropsUnknown r config m s hs

end

variable {r : Registry} {config : Config} {m : Mapping} {e : SchemaEntry}

/-- What is left of front matter of a registered type has the keys that the type knows. -/
theorem mem_keys_apply (he : r.entryOf? config m = some e) (hkeeps : KeepsType r config m) {key : String} :
    key ∈ (apply ⟨true, [], []⟩ r config m).keys ↔ key ∈ m.keys ∧ key ∈ e.schema.fieldNames := by
  rw [keys_apply, hkeeps.entryOf?_eq, he, List.mem_filter, mem_keysInOrder]
  simp

theorem dropped_eq_unknownKeys (he : r.entryOf? config m = some e) (hkeeps : KeepsType r config m) :
    dropped ⟨true, [], []⟩ r config m = e.schema.unknownKeys m := by
  refine List.filter_congr fun key hkey => ?_
  rw [decide_eq_decide.2 (not_congr ((mem_keys_apply he hkeeps).trans (and_iff_right hkey))), Bool.eq_iff_iff,
    decide_eq_true_iff, Bool.not_eq_true', ← Bool.not_eq_true, e.schema.has_iff]

theorem entryOf?_apply (hkeeps : KeepsType r config m) (dropsUnknown : Bool) :
    r.entryOf? config (apply ⟨dropsUnknown, [], []⟩ r config m) = r.entryOf? config m :=
  (entryOf?_congr (get?_type_apply dropsUnknown r config m)).trans hkeeps.entryOf?_eq

/-- The keys that the usual repairs take away are those that front matter of a registered type is told of. The type is
not among them, and what is left is told neither of unknown keys nor of tags that are a text. -/
theorem removes_unknown (r : Registry) (config : Config) (m : Mapping) :
    (∀ dropsUnknown, ∀ i ∈ r.validate config (apply ⟨dropsUnknown, [], []⟩ r config m), i.code ≠ .tagsNotArray) ∧
    ∀ e, r.entryOf? config m = some e → "type" ∉ e.referenceFields →
      let plan : RepairPlan := ⟨true, [], []⟩
      (r.validate config m).filter (·.code = .unknownKey) =
        (if plan.dropped r config m = [] then [] else [.keysUnknown (plan.dropped r config m)]) ∧
      (∀ key, key ∈ plan.dropped r config m ↔ key ∈ m.keys ∧ key ∉ e.schema.fieldNames) ∧
      (∀ key ∈ (plan.apply r config m).keys, key ∈ m.keys) ∧
      "type" ∈ (plan.apply r config m).keys ∧
      ∀ i ∈ r.validate config (plan.apply r config m), i.code ≠ .unknownKey := by
  refine ⟨fun dropsUnknown i hi => code_apply_ne_tagsNotArray dropsUnknown r config m hi, fun e he hreference => ?_⟩
  have hkeeps : KeepsType r config m := fun e' he' => by rwa [← Option.some.inj (he.symm.trans he')]
  have hdropped := dropped_eq_unknownKeys he hkeeps
  intro plan
  refine ⟨?_, fun key => ?_, fun key hkey => ?_, ?_, fun i hi hcode => ?_⟩
  · rw [hdropped]
    exact filter_unknownKey_validate he
  · rw [hdropped]
    exact e.schema.mem_unknownKeys m
  · exact ((mem_keys_apply he hkeeps).1 hkey).1
  · exact (mem_keys_apply he hkeeps).2 ⟨type_mem_keys he, e.schema.type_mem_fieldNames⟩
  · have hnone : e.schema.unknownKeys (plan.apply r config m) = [] := by
      refine List.eq_nil_iff_forall_not_mem.2 fun key hkey => ?_
      obtain ⟨hleft, hunknown⟩ := (e.schema.mem_unknownKeys _).1 hkey
      exact hunknown ((mem_keys_apply he hkeeps).1 hleft).2
    have htold := filter_unknownKey_validate ((entryOf?_apply hkeeps true).trans he)
    rw [if_pos hnone] at htold
    exact List.filter_eq_nil_iff.1 htold i hi (decide_eq_true hcode)

/-- A task with a text for its tags and two keys that no task has. -/
theorem removes_unknown_task :
    let m : Mapping := [("zeta", .int 1), ("type", .str "task"), ("tags", .str "a"), ("alpha", .null)]
    let plan : RepairPlan := ⟨true, [], []⟩
    (Registry.standard.entryOf? .default m).any (fun e => "type" ∉ e.referenceFields) = true ∧
    plan.dropped .standard .default m = ["zeta", "alpha"] ∧
    (Registry.standard.validate .default m).filter (·.code = .unknownKey) = [.keysUnknown ["zeta", "alpha"]] ∧
    "type" ∈ (plan.apply .standard .default m).keys ∧
    ∀ i ∈ Registry.standard.validate .default (plan.apply .standard .default m), i.code ≠ .unknownKey := by
  intro m plan
  have hany : (Registry.standard.entryOf? .default m).any (fun e => "type" ∉ e.referenceFields) = true := by
    decide +kernel
  obtain ⟨e, he, hreference⟩ := (Option.any_eq_true _ _).1 hany
  obtain ⟨htold, -, -, htype, hleft⟩ := (removes_unknown .standard .default m).2 e he (of_decide_eq_true hreference)
  have hdropped : plan.dropped .standard .default m = ["zeta", "alpha"] := by decide +kernel
  rw [hdropped] at htold
  exact ⟨hany, hdropped, htold, htype, hleft⟩

end RepairPlan

end NoteVault
