import NoteVault.Proofs.Note.Header
import NoteVault.Proofs.Note.Kept
import NoteVault.Proofs.Repair.Order
import NoteVault.Schema.Standard

/-!
Notes that are repaired and read again: where texts are kept and nothing is trimmed from the header, what is read is
the repaired front matter.
-/
namespace NoteVault

/-- The front matter that is written for a note: repaired, and with links in its reference fields. -/
def RepairPlan.written (p : RepairPlan) (r : Registry) (config : Config) (m : Mapping) : Mapping :=
  (p.apply r config m).linkReferences (Note.referencesOf (r.entryOf? config (p.apply r config m)))

namespace Yaml

open Mapping (listed)

theorem readsBack_listed {v : Value} (h : ReadsBack v) : ReadsBack (listed v) := by
  cases v with
  | str s => exact ⟨h, trivial⟩
  | _ => exact h

/-- Links stand between double quotes, where every text is read back. -/
theorem readsBack_asLink {v : Value} (h : ReadsBack v) : ReadsBack v.asLink := by
  cases v with
  | str s =>
    rw [Value.asLink]
    split
    next hlink =>
      simp only [Bool.and_eq_true, decide_eq_true_eq] at hlink
      have hwish : Content.wishOf (WikiLink.wrap s) = some .double := by
        rw [Content.wishOf, (WikiLink.isLink_wrap hlink.2).1, Bool.or_true, if_pos rfl]
      refine restores_str fun hsingle => ?_
      rw [hwish] at hsingle
      exact absurd hsingle (by simp [Form.styleFor, Form.style])
    next => exact h
  | _ => exact h

theorem readsBack_asLinks {v : Value} (h : ReadsBack v) : ReadsBack v.asLinks := by
  cases v with
  | list items =>
    rw [ReadsBack, itemsReadBack_iff] at h
    rw [Value.asLinks, ReadsBack, itemsReadBack_iff, List.forall_mem_map]
    exact fun v hv => readsBack_asLink (h v hv)
  | shared place v =>
    obtain ⟨members, rfl, hmembers⟩ := h
    exact ⟨members, rfl, hmembers⟩
  | _ =>
    simp only [Value.asLinks]
    exact readsBack_asLink h

end Yaml

namespace Value

theorem hasLongInteger_listed (v : Value) : (Mapping.listed v).hasLongInteger = v.hasLongInteger := by
  cases v <;> rfl

theorem hasLongInteger_asLink (v : Value) : v.asLink.hasLongInteger = v.hasLongInteger := by
  cases v with
  | str s =>
    rw [asLink]
    split <;> rfl
  | _ => rfl

theorem hasLongInteger_asLinks (v : Value) : v.asLinks.hasLongInteger = v.hasLongInteger := by
  cases v with
  | list items =>
    rw [asLinks, hasLongInteger, hasLongInteger, anyLongInteger_eq_any, anyLongInteger_eq_any, List.any_map]
    exact congrArg items.any (funext hasLongInteger_asLink)
  | shared place v =>
    cases v with
    | list items => exact hasLongInteger_asLinks (list items)
    | _ => rfl
  | _ =>
    simp only [asLinks]
    exact hasLongInteger_asLink _

end Value

namespace Mapping

open Yaml (ReadsBack)

variable {m : Mapping}

/-- Front matter that is read back is read back with links in its references as well. -/
theorem readsBack_linkReferences (h : ReadsBack (.map m)) (fields : List String) :
    ReadsBack (.map (m.linkReferences fields)) :=
  ⟨by rw [keys_linkReferences]; exact h.1, Yaml.entriesReadBack_iff.2
    (forall_mem_linkReferences (P := fun k v => Yaml.Content.IsKey k ∧ ReadsBack v)
      (fun _ _ hv => ⟨hv.1, Yaml.readsBack_asLinks hv.2⟩) (Yaml.entriesReadBack_iff.1 h.2) fields)⟩

theorem entriesHaveLongInteger_linkReferences (m : Mapping) (fields : List String) :
    Value.entriesHaveLongInteger (m.linkReferences fields) = Value.entriesHaveLongInteger m := by
  rw [linkReferences_eq_map, Value.entriesHaveLongInteger_eq_any, Value.entriesHaveLongInteger_eq_any, List.any_map]
  refine congrArg m.any (funext fun e => ?_)
  simp only [Function.comp]
  split
  · exact Value.hasLongInteger_asLinks e.2
  · rfl

end Mapping

namespace RepairPlan

open Mapping Yaml

variable {r : Registry} {config : Config} {m : Mapping}

/-- What is written for front matter that is read back is read back as well. -/
theorem readsBack_written (h : ReadsBack (.map m)) (dropsUnknown : Bool) :
    ReadsBack (.map (written ⟨dropsUnknown, [], []⟩ r config m)) :=
  readsBack_linkReferences ⟨nodup_keys_apply h.1 dropsUnknown r config, entriesReadBack_iff.2
    (forall_mem_apply dropsUnknown r config (P := fun k v => Content.IsKey k ∧ ReadsBack v)
      (fun _ _ hv => ⟨hv.1, readsBack_listed hv.2⟩) (entriesReadBack_iff.1 h.2))⟩ _

theorem written_short (h : Value.entriesHaveLongInteger m = false) (dropsUnknown : Bool) :
    Value.entriesHaveLongInteger (written ⟨dropsUnknown, [], []⟩ r config m) = false := by
  rw [Value.entriesHaveLongInteger_eq_any, List.any_eq_false] at h
  rw [written, entriesHaveLongInteger_linkReferences, Value.entriesHaveLongInteger_eq_any, List.any_eq_false]
  exact forall_mem_apply dropsUnknown r config (P := fun _ v => ¬ v.hasLongInteger = true)
    (fun _ v hv => by rwa [Value.hasLongInteger_listed]) h

end RepairPlan

namespace Note

open Yaml (ReadsBack placed placedEntries repeatedIn)

theorem stringify_apply {p : RepairPlan} {r : Registry} {config : Config} {m : Mapping}
    (h : Value.entriesHaveLongInteger (p.written r config m) = false) :
    stringify (p.apply r config m) (referencesOf (r.entryOf? config (p.apply r config m))) =
      .ok (headerText (p.written r config m)) := by
  rw [stringify, ← RepairPlan.written, h]
  rfl

/-- A repair writes the front matter, with the body behind it. -/
theorem repair_of_data {content : String} {note : Note} {m : Mapping} (h : parse content = .ok note)
    (hm : note.data = some m)
    (p : RepairPlan) (r : Registry) (config : Config) :
    repair p r config content =
      if Value.entriesHaveLongInteger (p.written r config m) then .error (.write .longInteger)
      else .ok ⟨assemble (headerText (p.written r config m)) note.body,
        assemble (headerText (p.written r config m)) note.body ≠ content⟩ := by
  simp only [repair, h, hm, Except.mapError, bind, Except.bind, withFrontMatter, stringify]
  rw [← RepairPlan.written]
  cases Value.entriesHaveLongInteger (p.written r config m) <;> rfl

/-- A note without front matter is not changed. -/
theorem repair_of_no_data {content : String} {note : Note} (h : parse content = .ok note) (hm : note.data = none)
    (p : RepairPlan) (r : Registry) (config : Config) : repair p r config content = .ok ⟨content, false⟩ := by
  simp only [repair, h, hm, Except.mapError, bind, Except.bind, pure, Except.pure]

/-- References that are written as links are read back as what they were. -/
theorem normalEntries_placed {n : Mapping} {references : List String} {repeated : List Value} {ρ : Nat → Nat}
    (hn : ∀ e ∈ n, e.2.IsNormal) (h : ReadsBack (.map (n.linkReferences references))) :
    Value.normalEntries (placedEntries repeated ρ (n.linkReferences references)) = placedEntries repeated ρ n := by
  rw [Mapping.linkReferences_eq_map] at h ⊢
  have hread := Yaml.entriesReadBack_iff.1 h.2
  rw [List.forall_mem_map] at hread
  rw [Yaml.placedEntries_eq_map, Yaml.placedEntries_eq_map, Value.normalEntries_eq_map, List.map_map, List.map_map]
  refine List.map_congr_left fun e he => Prod.ext rfl ?_
  have hvalue := (hread e he).2
  dsimp only [Function.comp] at hvalue ⊢
  split
  next href =>
    rw [if_pos href] at hvalue
    exact Yaml.normal_placed_asLinks hvalue (hn e he)
  next hnot =>
    rw [if_neg hnot] at hvalue
    exact Yaml.isNormal_placed e.2 hvalue (hn e he)

/-- The note that a repair writes is read as the repaired front matter, with its objects at other places. -/
theorem parse_repaired {content : String} {note : Note} {m : Mapping} {r : Registry} {config : Config}
    {dropsUnknown : Bool}
    (h : parse content = .ok note) (hm : note.data = some m)
    (hread : ReadsBack (.map (RepairPlan.written ⟨dropsUnknown, [], []⟩ r config m)))
    (hends : KeepsEnds (RepairPlan.written ⟨dropsUnknown, [], []⟩ r config m))
    (hshort : Value.entriesHaveLongInteger (RepairPlan.written ⟨dropsUnknown, [], []⟩ r config m) = false) :
    ∃ ρ text, parse (assemble (headerText (RepairPlan.written ⟨dropsUnknown, [], []⟩ r config m)) note.body) =
      .ok ⟨some (placedEntries (repeatedIn (RepairPlan.written ⟨dropsUnknown, [], []⟩ r config m)) ρ
        (RepairPlan.apply ⟨dropsUnknown, [], []⟩ r config m)), note.body, [], text⟩ := by
  obtain ⟨_, _, hsplit, -, -, -⟩ := exists_of_parse h hm
  have hnormal := RepairPlan.isNormal_apply (isNormal_of_parse h hm) dropsUnknown r config
  obtain ⟨ρ, text, -, hparse⟩ := parse_assemble hread hends (atLineEnd_of_split hsplit) (stringify_apply hshort)
  refine ⟨ρ, text, hparse.trans ?_⟩
  rw [RepairPlan.written] at hread ⊢
  rw [normalEntries_placed hnormal hread, repeatedIn]

/-- The safe repair keeps all data: what it writes for a note is read with the same keys, under which stands what
stood there, and a list where a text stood in the tags, in a reference or in an array. It does so where texts are kept
and no tuples stand in the front matter, integers are short enough to be written, and nothing is trimmed from the
header. -/
theorem repair_keeps_data {content : String} {note : Note} {m : Mapping} {r : Registry} {config : Config}
    (h : parse content = .ok note) (hm : note.data = some m) (hkept : (Value.map m).isKept = true)
    (hshort : Value.entriesHaveLongInteger m = false) (hends : KeepsEnds (RepairPlan.default.written r config m)) :
    ∃ rev note' m', repair .default r config content = .ok rev ∧ parse rev.content = .ok note' ∧ note'.data = some m' ∧
      m'.keys.Perm m.keys ∧ ∀ key, (m'.get? key).map Value.unshared =
        (m.get? key).map fun v => (if key ∈ Repair.listFields (r.entryOf? config m) then Mapping.listed v else v).unshared := by
  have hread := readsBack_of_parse h hm hkept hshort
  have hlong : Value.entriesHaveLongInteger (RepairPlan.written ⟨false, [], []⟩ r config m) = false :=
    RepairPlan.written_short hshort false
  obtain ⟨ρ, text, hparse⟩ := parse_repaired h hm (RepairPlan.readsBack_written hread false) hends hlong
  refine ⟨_, _, _, (repair_of_data h hm _ r config).trans (if_neg (by rw [RepairPlan.default, hlong]; simp)), hparse, rfl, ?_,
    fun key => ?_⟩
  · rw [Yaml.placedEntries_eq_map, Dictionary.keys_map fun _ v => placed _ ρ v]
    exact RepairPlan.keys_apply_perm hread.1 r config
  · rw [Yaml.placedEntries_eq_map, Dictionary.get?_map fun _ v => placed _ ρ v, RepairPlan.get?_apply, if_pos nofun,
      Repair.get?_listScalars, Option.map_map, Option.map_map]
    exact congrArg (Option.map · _) (funext fun v => Yaml.unshared_placed _)

/-- A note whose keys are not in order, with one tag and one reference, which are no lists. -/
theorem repair_keeps_data_task :
    let content := "---\nid: i\ntags: x\nprojects: p\ntype: task\n---\ntext"
    let m : Mapping := [("id", .str "i"), ("tags", .str "x"), ("projects", .str "p"), ("type", .str "task")]
    (∃ note, parse content = .ok note ∧ note.data = some m) ∧
    ∃ rev note' m', repair .default .standard .default content = .ok rev ∧ parse rev.content = .ok note' ∧
      note'.data = some m' ∧ m'.keys.Perm m.keys ∧ ∀ key, (m'.get? key).map Value.unshared = (m.get? key).map fun v =>
        (if key ∈ Repair.listFields (Registry.standard.entryOf? .default m) then Mapping.listed v else v).unshared := by
  have h : parse "---\nid: i\ntags: x\nprojects: p\ntype: task\n---\ntext" = .ok ⟨some [("id", .str "i"),
      ("tags", .str "x"), ("projects", .str "p"), ("type", .str "task")], "\ntext", [],
      "id: i\ntags: x\nprojects: p\ntype: task\n"⟩ := by decide +kernel
  exact ⟨⟨_, h, rfl⟩, repair_keeps_data h rfl (by decide +kernel) (by decide +kernel)
    (by unfold KeepsEnds; decide +kernel)⟩

/-- A no-break space at the end of the last text is trimmed from the header, and with it from the data. -/
theorem repair_trims_text :
    ∃ note rev note', parse "---\na: x\u00a0\n---\n" = .ok note ∧ note.data = some [("a", .str "x\u00a0")] ∧
      repair .default .empty .default "---\na: x\u00a0\n---\n" = .ok rev ∧ parse rev.content = .ok note' ∧
      note'.data = some [("a", .str "x")] :=
  ⟨⟨some [("a", .str "x\u00a0")], "\n", [], "a: x\u00a0\n"⟩, ⟨"---\na: x\n---\n", true⟩,
    ⟨some [("a", .str "x")], "\n", [], "a: x\n"⟩, by decide +kernel⟩

end Note

end NoteVault
