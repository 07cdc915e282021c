import NoteVault.Proofs.Repair.Keys
import NoteVault.Proofs.Validation
import NoteVault.Schema.Standard

/-!
Repair of front matter without errors: it stays without errors unless a text in the tags or in a reference field is
made a list although its field does not take lists.
-/
namespace NoteVault

/-- The field takes a text that stands in it when the text has become a list. -/
def Field.TakesListed (f : Field) (m : Mapping) : Prop :=
  ∀ s, m.get? f.name = some (.str s) → f.check (.list [.str s]) = none

namespace SchemaEntry

/-- The tags and the reference fields of a type take what becomes of the texts in them. -/
def TakesListed (e : SchemaEntry) (m : Mapping) : Prop :=
  ∀ f ∈ e.schema.fields, f.name = "tags" ∨ f.name ∈ e.referenceFields → f.TakesListed m

end SchemaEntry

namespace Field

open Mapping

theorem issue?_congr {f : Field} {m n : Mapping} (h : m.get? f.name = n.get? f.name) : f.issue? m = f.issue? n := by
  rw [issue?, issue?, h]

/-- A field without a problem has none when a text in it becomes a list, as far as it takes the list. -/
theorem issue?_listed {f : Field} {m n : Mapping} (h : f.issue? m = none)
    (hn : n.get? f.name = (m.get? f.name).map listed) :
    f.issue? n = none ↔ f.TakesListed m := by
  unfold TakesListed
  unfold issue? at h ⊢
  rw [hn]
  cases hv : m.get? f.name with
  | none => simpa [hv] using h
  | some v =>
    rw [hv] at h
    cases v with
    | str s => simpa [listed] using f.valueIssue?_eq_none_iff (v := .list [.str s])
    | _ => simpa [listed] using h

end Field

namespace RepairPlan

open Mapping Repair Registry

variable {r : Registry} {config : Config} {m : Mapping} {e : SchemaEntry}

/-- A type that is made a list is no type any more. -/
theorem not_accepts_of_type_mem (dropsUnknown : Bool) (hentry : r.entryOf? config m = some e) {declared : String}
    (hget : m.get? "type" = some (.str declared)) (htype : "type" ∈ e.referenceFields) :
    ¬ r.Accepts config (apply ⟨dropsUnknown, [], []⟩ r config m) ∧ ¬ e.TakesListed m := by
  have hlisted : (apply ⟨dropsUnknown, [], []⟩ r config m).get? "type" = some (.list [.str declared]) := by
    rw [get?_type_apply, get?_listScalars, hget, hentry, Option.map_some,
      if_pos (type_mem_listFields.2 ⟨e, rfl, htype⟩)]
    rfl
  refine ⟨fun h => (accepts_iff.1 h).1 ?_, fun h => ?_⟩
  · rw [declaredType?, text?, hlisted]
  · obtain ⟨f, hf, hname, hliteral⟩ := e.schema.type_literal
    have hcheck := h f hf (.inr (hname ▸ htype)) declared (hname ▸ hget)
    rw [Field.check, hliteral] at hcheck
    simp [FieldType.check, FieldType.checkLiteral, Value.agrees, Value.bare] at hcheck

/-- A field without a problem has none after the repair, as far as it takes what becomes of a text. -/
theorem issue?_apply (dropsUnknown : Bool) (hentry : r.entryOf? config m = some e) (hkeeps : KeepsType r config m)
    {f : Field} (hf : f ∈ e.schema.fields) {canonical : Value} (h : f.issue? (m.put "type" canonical) = none) :
    f.issue? ((apply ⟨dropsUnknown, [], []⟩ r config m).put "type" canonical) = none ↔
      (f.name = "tags" ∨ f.name ∈ e.referenceFields → f.TakesListed m) := by
  by_cases hname : f.name = "type"
  · have hput : ∀ n : Mapping, (n.put "type" canonical).get? f.name = some canonical := fun n => by
      rw [Dictionary.get?_put, if_pos hname]
    have hnot : ¬ (f.name = "tags" ∨ f.name ∈ e.referenceFields) := by
      rw [hname]
      exact not_or.2 ⟨by decide, hkeeps e hentry⟩
    exact iff_of_true ((Field.issue?_congr ((hput _).trans (hput m).symm)).trans h) fun hlisted => absurd hlisted hnot
  have hput : ∀ n : Mapping, (n.put "type" canonical).get? f.name = n.get? f.name := fun n => by
    rw [Dictionary.get?_put, if_neg hname]
  have hmem : f.name ∈ e.schema.fieldNames := List.mem_map_of_mem hf
  have hget : (apply ⟨dropsUnknown, [], []⟩ r config m).get? f.name =
      (m.get? f.name).map fun v => if f.name ∈ listFields (some e) then listed v else v := by
    rw [get?_apply, hkeeps.entryOf?_eq, hentry, if_pos (by simpa using fun _ => hmem), get?_listScalars, hentry]
  by_cases hlist : f.name ∈ listFields (some e)
  · simp only [hlist, if_true] at hget
    rw [Field.issue?_listed h (by rw [hput, hput, hget])]
    have hsame : f.TakesListed (m.put "type" canonical) ↔ f.TakesListed m := by
      unfold Field.TakesListed
      rw [hput]
    rw [hsame]
    refine ⟨fun htakes _ => htakes, fun htakes => ?_⟩
    obtain htags | hreference | ⟨g, hg, harray, hgname⟩ := mem_listFields.1 hlist
    · exact htakes (.inl htags)
    · exact htakes (.inr hreference)
    · -- an array with a text in it has a problem already
      obtain rfl := e.schema.eq_of_name_eq hg hf hgname
      intro s hs
      rw [Field.issue?, hput, hs] at h
      exact absurd (Field.valueIssue?_eq_none_iff.1 h) (Field.check_text_of_isArray harray s)
  · simp only [hlist, if_false, Option.map_id'] at hget
    refine iff_of_true ((Field.issue?_congr (by rw [hput, hput, hget])).trans h) fun hlisted => absurd ?_ hlist
    rw [mem_listFields]
    tauto

/-- Front matter without errors has none after the usual repairs exactly when no text in the tags or in a reference
field stands in a field that does not take the list of it. -/
theorem accepts_apply_iff (dropsUnknown : Bool) (h : r.Accepts config m) :
    r.Accepts config (apply ⟨dropsUnknown, [], []⟩ r config m) ↔
      ∀ e, r.entryOf? config m = some e → e.TakesListed m := by
  by_cases hkeeps : KeepsType r config m
  · have htype : (apply ⟨dropsUnknown, [], []⟩ r config m).get? "type" = m.get? "type" :=
      (get?_type_apply dropsUnknown r config m).trans hkeeps.get?_type
    rw [accepts_iff] at h ⊢
    obtain ⟨hdeclared, hissues⟩ := h
    rw [declaredType?_congr htype, entryOf?_congr htype, and_iff_right hdeclared]
    refine forall₂_congr fun e hentry => ?_
    obtain ⟨hfields, hkeys⟩ := e.schema.issues_eq_nil_iff.1 (hissues e hentry)
    rw [e.schema.issues_eq_nil_iff, SchemaEntry.TakesListed]
    refine Iff.trans (and_iff_left fun key hkey => hkeys key fun hnone => hkey ?_) (forall₂_congr fun f hf =>
      issue?_apply dropsUnknown hentry hkeeps hf (hfields f hf))
    rw [Dictionary.get?_put] at hnone ⊢
    split at hnone
    · cases hnone
    next hne => 
      rw [if_neg hne, get?_apply, get?_listScalars, hnone, Option.map_none, ite_self]
  · obtain ⟨e, hentry, hreference⟩ : ∃ e, r.entryOf? config m = some e ∧ "type" ∈ e.referenceFields := by
      simpa [KeepsType] using hkeeps
    obtain ⟨declared, hget⟩ : ∃ declared, m.get? "type" = some (.str declared) := by
      have hdeclared := (accepts_iff.1 h).1
      rw [declaredType?, text?] at hdeclared
      split at hdeclared
      next s hs => exact ⟨s, hs⟩
      next => exact absurd rfl hdeclared
    obtain ⟨hnot, htakes⟩ := not_accepts_of_type_mem dropsUnknown hentry hget hreference
    exact iff_of_false hnot fun hall => htakes (hall e hentry)

/-- A standard type, whose tags are an array, so that no text can stand there. -/
theorem accepts_apply_task :
    let m : Mapping := [("title", .str "t"), ("type", .str "task"), ("id", .str "i"), ("status", .str "done"),
      ("projects", .list [.str "p"]), ("tags", .list [])]
    Registry.standard.Accepts .default m ∧ (Registry.standard.Accepts .default (default.apply .standard .default m) ↔
      ∀ e, Registry.standard.entryOf? .default m = some e → e.TakesListed m) :=
  have h : Registry.standard.Accepts .default [("title", .str "t"), ("type", .str "task"), ("id", .str "i"),
      ("status", .str "done"), ("projects", .list [.str "p"]), ("tags", .list [])] := by decide +kernel
  ⟨h, accepts_apply_iff false h⟩

/-- A type whose tags are a text. -/
def textTags : Schema where
  typeName := "n"
  fields := [.literal "type" "n" "", .string "tags" 0 true ""]
  description := ""
  names_nodup := by decide
  type_literal := ⟨_, List.mem_cons_self, rfl, rfl⟩

/-- Tags that are a text where the type wants one are made a list, which it does not take. -/
theorem not_accepts_textTags :
    let r := Registry.empty.put ⟨textTags, "id", [], textTags.fieldNames⟩
    let m : Mapping := [("type", .str "n"), ("tags", .str "a")]
    r.Accepts .default m ∧ ∀ dropsUnknown, ¬ r.Accepts .default (apply ⟨dropsUnknown, [], []⟩ r .default m) := by
  decide +kernel

end RepairPlan

end NoteVault
