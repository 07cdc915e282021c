import NoteVault.Proofs.Note.PlainTree
import NoteVault.Proofs.Note.Rewrite
import NoteVault.Schema.Standard

/-!
What is written of repaired front matter has its keys in the order of its type, whatever repairs come before and
behind the usual ones. The usual repairs leave their own result as it is, and do not depend on the order in which
fields are visited.
-/
namespace NoteVault

namespace Mapping

open Dictionary (get? keys select)

variable (m : Mapping) (p : String → Bool)

/-- Entries that are dropped by their keys leave the others in the order of a type. -/
theorem sortBy_filter_sortBy (order : List String) :
    sortBy order ((m.sortBy order).filter fun e => p e.1) = (m.sortBy order).filter fun e => p e.1 := by
  have hfirst : select ((m.sortBy order).filter fun e => p e.1) (Text.firstOccurrences order) =
      (select m (Text.firstOccurrences order)).filter fun e => p e.1 := by
    rw [Dictionary.select_filter, Dictionary.select_congr (get?_sortBy order m)]
  have hordered : (select m (Text.firstOccurrences order)).filter (fun e => e.1 ∉ order) = [] := by
    rw [← Dictionary.select_filter_names m (fun key => key ∉ order)]
    have hnone : (Text.firstOccurrences order).filter (fun key => key ∉ order) = [] := by
      rw [List.filter_eq_nil_iff]
      intro key hkey
      simpa using Text.mem_firstOccurrences.1 hkey
    rw [hnone]
    rfl
  have hothers : ((m.sortBy order).filter fun e => p e.1).filter (fun e => e.1 ∉ order) =
      (m.filter fun e => e.1 ∉ order).filter fun e => p e.1 := by
    rw [List.filter_comm, sortBy_eq_select, List.filter_append, hordered, List.nil_append, List.filter_filter]
    simp
  calc sortBy order ((m.sortBy order).filter fun e => p e.1)
      = select ((m.sortBy order).filter fun e => p e.1) (Text.firstOccurrences order) ++
          ((m.sortBy order).filter fun e => p e.1).filter (fun e => e.1 ∉ order) := sortBy_eq_select _ _
    _ = (m.sortBy order).filter fun e => p e.1 := by rw [hfirst, hothers, ← List.filter_append]; rfl

/-- Entries that are dropped by their keys leave the others in the order of code points. -/
theorem sortAll_filter_sortAll :
    sortAll (m.sortAll.filter fun e => p e.1) = m.sortAll.filter fun e => p e.1 := by
  have hkeys : keys m.sortAll = Text.sorted m.keys := by
    rw [sortAll_eq_select, Dictionary.keys_select, List.filter_eq_self]
    intro key hkey
    exact decide_eq_true ((Text.sorted_perm m.keys).mem_iff.1 hkey)
  have hsorted : Text.sorted (keys (m.sortAll.filter fun e => p e.1)) = (Text.sorted m.keys).filter p := by
    rw [Dictionary.keys_filter, hkeys]
    exact List.mergeSort_of_pairwise ((Text.sorted_pairwise m.keys).filter p)
  rw [sortAll_eq_select, hsorted, Dictionary.select_filter, Dictionary.select_congr (get?_sortAll m),
    Dictionary.select_filter_names, List.filter_filter, sortAll_eq_select]
  simp only [Bool.and_self]

end Mapping

namespace Repair

open Mapping

variable (r : Registry) (config : Config)

/-- Fields are made lists in any order, and as often as one likes. -/
theorem listAll_congr {names names' : List String} (h : ∀ name, name ∈ names ↔ name ∈ names') (m : Mapping) :
    listAll names m = listAll names' m := by
  simp only [listAll_eq_map, h]

/-- Whatever is dropped, as long as the type stays: the order of the type is the same. -/
theorem sortKeys_filter_sortKeys {p : String → Bool} (htype : p "type" = true) (m : Mapping) :
    sortKeys r config ((sortKeys r config m).filter fun e => p e.1) = (sortKeys r config m).filter fun e => p e.1 := by
  have hentry : r.entryOf? config ((sortKeys r config m).filter fun e => p e.1) = r.entryOf? config m := by
    apply Registry.entryOf?_congr
    rw [Dictionary.get?_filter, if_pos htype, get?_sortKeys]
  rw [sortKeys, hentry]
  unfold sortKeys
  cases r.entryOf? config m with
  | some e => exact sortBy_filter_sortBy m p e.keyOrder
  | none => exact sortAll_filter_sortAll m p

/-- Keys that the type does not know are dropped by their names, and the type is not among them. -/
theorem exists_dropUnknown_eq_filter (m : Mapping) :
    ∃ p : String → Bool, p "type" = true ∧ dropUnknown r config m = m.filter fun e => p e.1 := by
  unfold dropUnknown
  cases r.entryOf? config m with
  | some e => exact ⟨fun key => key ∈ e.schema.fieldNames, decide_eq_true e.schema.type_mem_fieldNames, rfl⟩
  | none => exact ⟨fun _ => true, rfl, (List.filter_eq_self.2 fun _ _ => rfl).symm⟩

theorem sortKeys_perm {m : Mapping} (hm : m.keys.Nodup) : (sortKeys r config m).Perm m := by
  refine Dictionary.perm_of_get? ?_ hm (get?_sortKeys r config m)
  rw [keys_sortKeys]
  exact nodup_keysInOrder _ hm

end Repair

namespace RepairPlan

open Mapping Repair

variable (r : Registry) (config : Config)

theorem apply_before (dropsUnknown : Bool) (before : List Repair) (m : Mapping) :
    apply ⟨dropsUnknown, before, []⟩ r config m =
      apply ⟨dropsUnknown, [], []⟩ r config (before.foldl (fun m repair => repair m) m) := by
  simp [apply, repairs]

theorem apply_after (dropsUnknown : Bool) (before : List Repair) {after : List Repair} (h : after ≠ []) (m : Mapping) :
    apply ⟨dropsUnknown, before, after⟩ r config m =
      sortKeys r config (after.foldl (fun m repair => repair m) (apply ⟨dropsUnknown, before, []⟩ r config m)) := by
  have hafter : after.isEmpty = false := by simpa using h
  simp [apply, repairs, hafter]

/-- The order of keys comes last, or only names that the type does not know are dropped behind it. -/
theorem exists_apply_eq_filter (plan : RepairPlan) (m : Mapping) :
    ∃ (n : Mapping) (p : String → Bool), p "type" = true ∧
      plan.apply r config m = (sortKeys r config n).filter fun e => p e.1 := by
  have hall : ∀ n : Mapping, n.filter (fun _ => true) = n := fun n => List.filter_eq_self.2 fun _ _ => rfl
  obtain ⟨dropsUnknown, before, after⟩ := plan
  by_cases hafter : after = []
  · subst hafter
    rw [apply_before, apply_usual]
    split
    · obtain ⟨p, htype, hdrop⟩ := exists_dropUnknown_eq_filter r config
        (sortKeys r config (listScalars r config (before.foldl (fun m repair => repair m) m)))
      exact ⟨_, p, htype, hdrop⟩
    · exact ⟨_, fun _ => true, rfl, (hall _).symm⟩
  · rw [apply_after r config dropsUnknown before hafter]
    exact ⟨_, fun _ => true, rfl, (hall _).symm⟩

/-- What is written has its keys in order: to order them once more changes nothing. -/
theorem sortKeys_apply (plan : RepairPlan) (m : Mapping) :
    sortKeys r config (plan.apply r config m) = plan.apply r config m := by
  obtain ⟨n, p, htype, happly⟩ := exists_apply_eq_filter r config plan m
  rw [happly]
  exact sortKeys_filter_sortKeys r config htype n

end RepairPlan

/-- The keys that the order of the type names come first, in that order, and all others follow. Without a type that is
registered, the keys are in the order of code points. -/
structure Mapping.InOrder (r : Registry) (config : Config) (m : Mapping) : Prop where
  registered : ∀ e, r.entryOf? config m = some e →
    m.keys = (Text.firstOccurrences e.keyOrder).filter (· ∈ m.keys) ++ m.keys.filter (· ∉ e.keyOrder)
  unregistered : r.entryOf? config m = none → m.keys.Pairwise (· ≤ ·)

/-- Keys that need no ordering are in order. -/
theorem Mapping.inOrder_of_sortKeys {r : Registry} {config : Config} {m : Mapping}
    (h : Repair.sortKeys r config m = m) : m.InOrder r config := by
  have hkeys : m.keys = keysInOrder (r.entryOf? config m) m.keys := by
    rw [← Repair.keys_sortKeys, h]
  constructor
  · intro e hentry
    rw [hentry] at hkeys
    exact hkeys
  · intro hentry
    have hsorted := (Text.sorted_pairwise m.keys).imp Text.le_iff.1
    rw [hentry] at hkeys
    change m.keys = Text.sorted m.keys at hkeys
    rwa [← hkeys] at hsorted

namespace RepairPlan

open Mapping Repair

variable (r : Registry) (config : Config)

/-- The usual repairs may visit the fields that they make lists in any order. -/
theorem apply_of_same_fields (dropsUnknown : Bool) {m : Mapping} {names : List String}
    (h : ∀ name, name ∈ names ↔ name ∈ listFields (r.entryOf? config m)) :
    apply ⟨dropsUnknown, [], []⟩ r config m =
      if dropsUnknown then dropUnknown r config (sortKeys r config (listAll names m))
      else sortKeys r config (listAll names m) := by
  rw [apply_usual, listScalars, listAll_congr h]

/-- Where no key is dropped, texts in fields of lists become lists and entries are moved. -/
theorem apply_perm {m : Mapping} (hm : m.keys.Nodup) :
    (apply ⟨false, [], []⟩ r config m).Perm
      (m.map fun (k, v) => (k, if k ∈ listFields (r.entryOf? config m) then listed v else v)) := by
  rw [apply_usual, ← listScalars_eq_map]
  apply sortKeys_perm
  rw [keys_listScalars]
  exact hm

/-- The text that a repair gives is read again with the keys in the order in which they are written. -/
theorem exists_parse_repaired {plan : RepairPlan} {content : String} {note : Note} {m : Mapping}
    (h : Note.parse content = .ok note) (hm : note.data = some m)
    (hread : Yaml.ReadsBack (.map (plan.written r config m))) (hends : Note.KeepsEnds (plan.written r config m))
    (hshort : Value.entriesHaveLongInteger (plan.written r config m) = false) :
    ∃ note' m', Note.parse (Note.assemble (Note.headerText (plan.written r config m)) note.body) = .ok note' ∧
      note'.data = some m' ∧ note'.body = note.body ∧ m'.keys = (plan.apply r config m).keys := by
  obtain ⟨_, _, hsplit, -, -, -⟩ := Note.exists_of_parse h hm
  obtain ⟨ρ, text, -, hparse⟩ :=
    Note.parse_assemble hread hends (Note.atLineEnd_of_split hsplit) (Note.stringify_apply hshort)
  refine ⟨_, _, hparse, rfl, rfl, ?_⟩
  rw [Value.normalEntries_eq_map, Dictionary.keys_map fun _ => Value.normal, Yaml.placedEntries_eq_map,
    Dictionary.keys_map fun _ v => Yaml.placed _ ρ v]
  exact keys_linkReferences _ _

/-- A repaired note is its body behind the header of what the repairs make of its front matter, with links in the
references of the type that they leave. Whatever repairs there are, the keys of that header are in order, and they are
read in this order where values are read back. The usual repairs leave their own result as it is, do not depend on the
order of fields, and do no more than make lists and move entries where no key is dropped. -/
theorem apply_canonical :
    (∀ (plan : RepairPlan) (m : Mapping), let written := plan.apply r config m
      let linked := written.linkReferences (Note.referencesOf (r.entryOf? config written))
      (∀ content note, Note.parse content = .ok note → note.data = some m →
        (Note.repair plan r config content =
          if Value.entriesHaveLongInteger linked then .error (.write .longInteger)
          else .ok ⟨Note.assemble (Note.headerText linked) note.body,
            Note.assemble (Note.headerText linked) note.body ≠ content⟩) ∧
        (Yaml.ReadsBack (.map linked) → Note.KeepsEnds linked → Value.entriesHaveLongInteger linked = false →
          ∃ note' m', Note.parse (Note.assemble (Note.headerText linked) note.body) = .ok note' ∧
            note'.data = some m' ∧ note'.body = note.body ∧ m'.keys = written.keys)) ∧
      linked.keys = written.keys ∧ sortKeys r config written = written ∧ written.InOrder r config) ∧
    (∀ (dropsUnknown : Bool) (m : Mapping), m.keys.Nodup → let once := apply ⟨dropsUnknown, [], []⟩ r config m
      apply ⟨dropsUnknown, [], []⟩ r config once = once ∧
      (∀ names, (∀ name, name ∈ names ↔ name ∈ listFields (r.entryOf? config m)) →
        once = if dropsUnknown then dropUnknown r config (sortKeys r config (listAll names m))
          else sortKeys r config (listAll names m)) ∧
      (dropsUnknown = false → once.Perm
        (m.map fun (k, v) => (k, if k ∈ listFields (r.entryOf? config m) then listed v else v)))) := by
  constructor
  · intro plan m written linked
    refine ⟨fun content note hparse hdata => ⟨Note.repair_of_data hparse hdata plan r config, ?_⟩,
      keys_linkReferences _ _, sortKeys_apply r config plan m, inOrder_of_sortKeys (sortKeys_apply r config plan m)⟩
    exact exists_parse_repaired r config hparse hdata
  · intro dropsUnknown m hm once
    refine ⟨apply_eq_self (isRepaired_apply hm dropsUnknown r config), ?_, ?_⟩
    · intro names hnames
      exact apply_of_same_fields r config dropsUnknown hnames
    · rintro rfl
      exact apply_perm r config hm

/-- A note that gets a title and an identity, and loses a key that its type does not know. -/
theorem apply_canonical_task :
    let content := "---\nzeta: 1\ntags: x\ntype: task\n---\nbody"
    let repaired := "---\ntype: task\nid: task-do-it\ntitle: Do it\ntags:\n  - x\n---\nbody"
    let m : Mapping := [("zeta", .int 1), ("tags", .str "x"), ("type", .str "task")]
    let plan : RepairPlan := ⟨true, [titleFromPath "do-it.md" .standard .default], [idFromTitle .standard .default]⟩
    let written : Mapping := [("type", .str "task"), ("id", .str "task-do-it"), ("title", .str "Do it"),
      ("tags", .list [.str "x"])]
    let usual : RepairPlan := ⟨false, [], []⟩
    let once : Mapping := [("type", .str "task"), ("tags", .list [.str "x"]), ("zeta", .int 1)]
    plan.apply .standard .default m = written ∧ Note.repair plan .standard .default content = .ok ⟨repaired, true⟩ ∧
      written.InOrder .standard .default ∧
      (∃ note' m', Note.parse repaired = .ok note' ∧ note'.data = some m' ∧ m'.keys = ["type", "id", "title", "tags"]) ∧
      m.keys.Nodup ∧ usual.apply .standard .default m = once ∧ usual.apply .standard .default once = once ∧
      once = sortKeys .standard .default (listAll ["projects", "tags"] m) ∧
      once.Perm [("zeta", .int 1), ("tags", .list [.str "x"]), ("type", .str "task")] := by
  have hnames : ∀ name, name ∈ ["projects", "tags"] ↔ name ∈ ["tags", "projects", "projects", "tags"] := by
    intro name
    simp only [List.mem_cons, List.not_mem_nil]
    tauto
  intro content repaired m plan written usual once
  have hparse : Note.parse content = .ok ⟨some m, "\nbody", [], "zeta: 1\ntags: x\ntype: task\n"⟩ := by decide +kernel
  have hwritten : plan.apply .standard .default m = written := by decide +kernel
  have honce : usual.apply .standard .default m = once := by decide +kernel
  have hm : m.keys.Nodup := by decide
  have hlinked : written.linkReferences (Note.referencesOf (Registry.standard.entryOf? .default written)) = written := by
    decide +kernel
  have hread : Yaml.ReadsBack (.map written) := Yaml.readsBack_plain _ (by decide +kernel)
  have hends : Note.KeepsEnds written := by unfold Note.KeepsEnds; decide +kernel
  have htext : Note.assemble (Note.headerText written) "\nbody" = repaired := by decide +kernel
  have hlists : listFields (Registry.standard.entryOf? .default m) = ["tags", "projects", "projects", "tags"] := by
    decide +kernel
  have hlisted : m.map (fun (k, v) => (k, if k ∈ ["tags", "projects", "projects", "tags"] then listed v else v)) =
      [("zeta", .int 1), ("tags", .list [.str "x"]), ("type", .str "task")] := by rfl
  obtain ⟨hplan, husual⟩ := apply_canonical .standard .default
  obtain ⟨hnote, -, -, hordered⟩ := hplan plan m
  obtain ⟨htwice, hfields, hperm⟩ := husual false m hm
  rw [hlists] at hfields hperm
  rw [hlisted] at hperm
  rw [hwritten] at hordered
  rw [honce] at htwice hfields hperm
  obtain ⟨hrepair, hagain⟩ := hnote content _ hparse rfl
  rw [hwritten, hlinked, htext] at hrepair hagain
  obtain ⟨note', m', hparse', hdata', -, hkeys⟩ := hagain hread hends (by decide +kernel)
  have hsame := hfields ["projects", "tags"] hnames
  rw [if_neg Bool.false_ne_true] at hsame
  exact ⟨hwritten, hrepair, hordered, ⟨note', m', hparse', hdata', hkeys⟩, hm, honce, htwice, hsame, hperm rfl⟩

end RepairPlan

end NoteVault
