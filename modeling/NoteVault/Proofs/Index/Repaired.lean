import NoteVault.Index
import NoteVault.Proofs.Repair.Written
import NoteVault.Schema.Standard

/-!
A repaired note in the index: it has the type, the identity and the references that it had before.
-/
namespace NoteVault

theorem Value.targets_listed (v : Value) : (Mapping.listed v).targets = v.targets := by
  cases v with
  | str s => by_cases h : s = "" <;> simp [Mapping.listed, targets, h]
  | _ => rfl

theorem Mapping.references_congr {m n : Mapping} {fields : List String}
    (h : ∀ field ∈ fields, (m.get? field).map Value.targets = (n.get? field).map Value.targets) (source : String) :
    m.references source fields = n.references source fields :=
  List.flatMap_congr fun field hf => by rw [h field hf]

/-- The identity is no tag, no reference and no array, and the type is no reference: no repair makes a list of them. -/
structure SchemaEntry.KeepsIdentity (e : SchemaEntry) : Prop where
  type : "type" ∉ e.referenceFields
  notTags : e.idField ≠ "tags"
  notReference : e.idField ∉ e.referenceFields
  notArray : ∀ f ∈ e.schema.fields, f.isArray = true → f.name ≠ e.idField

instance (e : SchemaEntry) : Decidable e.KeepsIdentity :=
  decidable_of_iff ("type" ∉ e.referenceFields ∧ e.idField ≠ "tags" ∧ e.idField ∉ e.referenceFields ∧
      ∀ f ∈ e.schema.fields, f.isArray = true → f.name ≠ e.idField)
    ⟨fun ⟨h₁, h₂, h₃, h₄⟩ => ⟨h₁, h₂, h₃, h₄⟩, fun ⟨h₁, h₂, h₃, h₄⟩ => ⟨h₁, h₂, h₃, h₄⟩⟩

theorem Standard.keepsIdentity : ∀ e ∈ Registry.standard.entries, e.KeepsIdentity := by decide +kernel

theorem Registry.mem_of_entryOf? {r : Registry} {config : Config} {m : Mapping} {e : SchemaEntry}
    (h : r.entryOf? config m = some e) : e ∈ r.entries := by
  obtain ⟨_, -, he⟩ := Option.bind_eq_some_iff.1 h
  exact List.mem_of_find?_eq_some he

namespace IndexedNote

open Mapping

/-- Two notes have one type, one identity and the same references, in the same order. -/
def Alike (a b : IndexedNote × List Reference) : Prop := a.1.type = b.1.type ∧ a.1.id = b.1.id ∧ a.2 = b.2

/-- To the index, front matter is its type, its identity and the targets in its fields. -/
theorem ofFrontMatter_congr {r : Registry} {config : Config} {m n : Mapping} (htype : n.get? "type" = m.get? "type")
    (hid : n.get? (((r.entryOf? config m).map SchemaEntry.idField).getD defaultIdField) =
      m.get? (((r.entryOf? config m).map SchemaEntry.idField).getD defaultIdField))
    (htargets : ∀ field, (n.get? field).map Value.targets = (m.get? field).map Value.targets) (path : String)
    (issues : List Issue) :
    Alike (ofFrontMatter r config path n issues) (ofFrontMatter r config path m issues) := by
  have hdeclared : n.declaredType? = m.declaredType? := declaredType?_congr htype
  unfold ofFrontMatter
  rw [hdeclared]
  cases hd : m.declaredType? with
  | none => exact ⟨rfl, rfl, rfl⟩
  | some declared =>
    have hentry : r.entryOf? config m = r.entry? (config.resolve declared) := by
      rw [Registry.entryOf?, hd, Option.bind_some]
    rw [hentry] at hid
    refine ⟨rfl, ?_, ?_⟩
    · simp only [typed, text?, hid]
    · exact references_congr (fun field _ => htargets field) path

/-- Reading the front matter of a repaired note back gives it the same place in the index, if the repairs make no
list of its type and its identity. -/
theorem ofFrontMatter_repaired {r : Registry} {config : Config} {content : String} {note : Note} {m : Mapping}
    (hparse : Note.parse content = .ok note) (hdata : note.data = some m)
    (hentry : ∀ e, r.entryOf? config m = some e → e.KeepsIdentity) (path : String) (issues : List Issue) :
    let f := RepairPlan.default.apply r config m
    let written := f.linkReferences (Note.referencesOf (r.entryOf? config f))
    Alike (ofFrontMatter r config path (Value.normalEntries written) issues) (ofFrontMatter r config path m issues) := by
  intro f written
  have hread : Value.normalEntries written = f :=
    normalEntries_linkReferences (RepairPlan.isNormal_apply (Note.isNormal_of_parse hparse hdata) false r config) _
  have hget : ∀ key, f.get? key =
      (m.get? key).map fun v => if key ∈ Repair.listFields (r.entryOf? config m) then listed v else v := fun key => by
    rw [← Repair.get?_listScalars]
    exact (RepairPlan.get?_apply false r config m key).trans (if_pos nofun)
  have hsame : ∀ key, key ∉ Repair.listFields (r.entryOf? config m) → f.get? key = m.get? key := fun key hkey => by
    simp [hget, hkey]
  rw [hread]
  refine ofFrontMatter_congr (hsame _ fun hmem => ?_) (hsame _ ?_) (fun field => ?_) path issues
  · obtain ⟨e, he, hreference⟩ := Repair.type_mem_listFields.1 hmem
    exact (hentry e he).type hreference
  · cases he : r.entryOf? config m with
    | none => decide
    | some e =>
      obtain ⟨-, htags, hreference, harray⟩ := hentry e he
      rw [Option.map_some, Option.getD_some, Repair.mem_listFields]
      rintro (h | h | ⟨f, hf, hf', h⟩)
      exacts [htags h, hreference h, harray f hf hf' h]
  · rw [hget, Option.map_map]
    congr 1
    funext v
    by_cases hkey : field ∈ Repair.listFields (r.entryOf? config m) <;> simp [hkey, Value.targets_listed]

/-- A task with one reference, which is no list, and one tag. -/
theorem ofFrontMatter_repaired_task :
    let content := "---\nprojects: '[[p]]'\ntags: x\ntype: task\nid: i\n---"
    let m : Mapping := [("projects", .str "p"), ("tags", .str "x"), ("type", .str "task"), ("id", .str "i")]
    let f := RepairPlan.default.apply .standard .default m
    let written := f.linkReferences (Note.referencesOf (Registry.standard.entryOf? .default f))
    (∃ note, Note.parse content = .ok note ∧ note.data = some m) ∧
      written.get? "projects" = some (.list [.str "[[p]]"]) ∧
      Alike (ofFrontMatter .standard .default "a.md" (Value.normalEntries written) [])
        (ofFrontMatter .standard .default "a.md" m []) := by
  have hparse : Note.parse "---\nprojects: '[[p]]'\ntags: x\ntype: task\nid: i\n---" = .ok ⟨some [("projects", .str "p"),
      ("tags", .str "x"), ("type", .str "task"), ("id", .str "i")], "", [],
      "projects: '[[p]]'\ntags: x\ntype: task\nid: i\n"⟩ := by decide +kernel
  exact ⟨⟨_, hparse, rfl⟩, by decide +kernel, ofFrontMatter_repaired hparse rfl
    (fun e he => Standard.keepsIdentity e (Registry.mem_of_entryOf? he)) "a.md" []⟩

end IndexedNote

end NoteVault
