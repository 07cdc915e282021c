import NoteVault.Proofs.Note.Cycle
import NoteVault.Proofs.Note.Rewrite
import NoteVault.Proofs.Yaml.Moved

/-!
A second repair of a note changes nothing, where what the first one writes is read back: it finds all keys in order
and all lists made, and writes the same text.
-/
namespace NoteVault

namespace Value

mutual

/-- No set in the value has several members. Such members have no order of their own; the order of code points, in
which they stand here, is one of many in which they may be written. -/
def hasOneOrder : Value → Bool
  | set members => members.length ≤ 1
  | list items => haveOneOrder items
  | tuple items => haveOneOrder items
  | map entries => entriesHaveOneOrder entries
  | shared _ v => hasOneOrder v
  | _ => true

def haveOneOrder : List Value → Bool
  | [] => true
  | v :: rest => hasOneOrder v && haveOneOrder rest

def entriesHaveOneOrder : List (String × Value) → Bool
  | [] => true
  | (_, v) :: rest => hasOneOrder v && entriesHaveOneOrder rest

end

end Value

namespace Yaml

variable {repeated : List Value} {ρ : Nat → Nat} {v : Value}

theorem placed_eq_str (h : ReadsBack v) {s : String} : placed repeated ρ v = .str s ↔ v = .str s := by
  cases v with
  | shared place v =>
    obtain ⟨members, -, hset | ⟨q, hset⟩⟩ := @placed_object repeated ρ place v h
    all_goals simp [hset]
  | _ => simp [placed]

theorem placed_asLink (h : ReadsBack v) : placed repeated ρ v.asLink = (placed repeated ρ v).asLink := by
  by_cases hv : ∃ s, v = .str s
  · obtain ⟨s, rfl⟩ := hv
    rw [placed_simple (v := .str s) rfl, Value.asLink]
    split <;> rfl
  · rw [not_exists] at hv
    rw [Value.asLink_of_ne_str hv, Value.asLink_of_ne_str fun s hs => hv s ((placed_eq_str h).1 hs)]

theorem placed_asLinks (h : ReadsBack v) : placed repeated ρ v.asLinks = (placed repeated ρ v).asLinks := by
  cases v with
  | list items =>
    rw [ReadsBack, itemsReadBack_iff] at h
    simp only [Value.asLinks, placed, placedItems_eq_map, List.map_map]
    exact congrArg Value.list (List.map_congr_left fun v hv => placed_asLink (h v hv))
  | shared place v =>
    obtain ⟨members, rfl, hset⟩ := @placed_object repeated ρ place v h
    obtain hset | ⟨q, hset⟩ := hset
    all_goals simp only [Value.asLinks, Value.asLink, hset]
  | _ =>
    simp only [Value.asLinks]
    exact placed_asLink h

mutual

theorem hasLongInteger_placed (v : Value) : (placed repeated ρ v).hasLongInteger = v.hasLongInteger := by
  cases v with
  | list items => exact anyLongInteger_placed items
  | map entries => exact entriesHaveLongInteger_placed entries
  | shared place v =>
    rw [placed]
    split <;> rfl
  | _ => rfl

theorem anyLongInteger_placed (items : List Value) :
    Value.anyLongInteger (placedItems repeated ρ items) = Value.anyLongInteger items := by
  cases items with
  | nil => rfl
  | cons v rest =>
    rw [placedItems, Value.anyLongInteger, Value.anyLongInteger, hasLongInteger_placed v, anyLongInteger_placed rest]

theorem entriesHaveLongInteger_placed (entries : List (String × Value)) :
    Value.entriesHaveLongInteger (placedEntries repeated ρ entries) = Value.entriesHaveLongInteger entries := by
  cases entries with
  | nil => rfl
  | cons e rest =>
    rw [placedEntries, Value.entriesHaveLongInteger, Value.entriesHaveLongInteger, hasLongInteger_placed e.2,
      entriesHaveLongInteger_placed rest]

end

end Yaml

namespace Mapping

open Value (asWritten asWrittenEntries)

variable {n : Mapping} {f : Value → Value}

/-- What keeps all texts, and makes no new ones, keeps the texts of the keys. -/
theorem text?_map (h : ∀ e ∈ n, ∀ s, f e.2 = .str s ↔ e.2 = .str s) (key : String) :
    text? (n.map fun (k, v) => (k, f v)) key = n.text? key := by
  rw [text?, text?, Dictionary.get?_map fun _ => f]
  cases hv : n.get? key with
  | none => rfl
  | some v =>
    have htext := h _ (Dictionary.mem_of_get? hv)
    dsimp only at htext
    rw [Option.map_some]
    cases hfv : f v with
    | str s => rw [(htext s).1 hfv]
    | _ =>
      cases v with
      | str s => cases ((htext s).2 rfl).symm.trans hfv
      | _ => rfl

/-- Nothing is left to repair where all texts are kept. -/
theorem isRepaired_map {dropsUnknown : Bool} {r : Registry} {config : Config}
    (h : n.IsRepaired dropsUnknown r config) (hf : ∀ e ∈ n, ∀ s, f e.2 = .str s ↔ e.2 = .str s) :
    IsRepaired dropsUnknown r config (n.map fun (k, v) => (k, f v)) ∧
      r.entryOf? config (n.map fun (k, v) => (k, f v)) = r.entryOf? config n := by
  have hkeys : Dictionary.keys (n.map fun (k, v) => (k, f v)) = Dictionary.keys n := Dictionary.keys_map (fun _ => f) n
  have hentry : r.entryOf? config (n.map fun (k, v) => (k, f v)) = r.entryOf? config n := by
    rw [Registry.entryOf?, Registry.entryOf?, declaredType?, declaredType?, text?_map hf]
  refine ⟨⟨?_, ?_, ?_, ?_⟩, hentry⟩
  · rw [hkeys]
    exact h.nodup
  · rw [hentry, List.forall_mem_map]
    intro e he hkey
    have hlisted := h.listed e he hkey
    dsimp only
    cases hp : f e.2 with
    | str s =>
      rw [(hf e he s).1 hp] at hlisted
      cases hlisted
    | _ => rfl
  · rw [hentry, hkeys]
    exact h.ordered
  · rw [hentry, hkeys]
    exact h.known

theorem linkReferences_asWritten (h : ∀ e ∈ n, e.2.IsFieldValue) (fields : List String) :
    linkReferences (asWrittenEntries n) fields = asWrittenEntries (n.linkReferences fields) := by
  rw [linkReferences_eq_map, linkReferences_eq_map, Value.asWrittenEntries_eq_map, Value.asWrittenEntries_eq_map,
    List.map_map, List.map_map]
  refine List.map_congr_left fun e he => Prod.ext rfl ?_
  simp only [Function.comp]
  split
  · exact (h e he).asLinks_asWritten
  · rfl

theorem linkReferences_placed {repeated : List Value} {ρ : Nat → Nat} (h : ∀ e ∈ n, Yaml.ReadsBack e.2)
    (fields : List String) :
    linkReferences (Yaml.placedEntries repeated ρ n) fields =
      Yaml.placedEntries repeated ρ (n.linkReferences fields) := by
  rw [linkReferences_eq_map, linkReferences_eq_map, Yaml.placedEntries_eq_map, Yaml.placedEntries_eq_map,
    List.map_map, List.map_map]
  refine List.map_congr_left fun e he => Prod.ext rfl ?_
  simp only [Function.comp]
  split
  · exact (Yaml.placed_asLinks (h e he)).symm
  · rfl

end Mapping

namespace Note

open Mapping
open Value (asWritten asWrittenEntries)
open Yaml (ReadsBack OnlySets placed placedEntries repeatedIn)

variable {dropsUnknown : Bool} {r : Registry} {config : Config} {m : Mapping}

/-- What the usual repairs write is read as it is, with nothing trimmed from it: texts are kept, of the objects only
sets occur several times, tuples, which are written as lists, hold neither dates nor links, and there is one order in
which the members of sets can be written. -/
structure IsSteady (dropsUnknown : Bool) (r : Registry) (config : Config) (m : Mapping) : Prop where
  kept : (Value.map (asWrittenEntries (RepairPlan.apply ⟨dropsUnknown, [], []⟩ r config m))).isKept = true
  ends : KeepsEnds (RepairPlan.written ⟨dropsUnknown, [], []⟩ r config m)
  onlySets : OnlySets (repeatedIn (RepairPlan.written ⟨dropsUnknown, [], []⟩ r config m))
  normal : ∀ e ∈ RepairPlan.apply ⟨dropsUnknown, [], []⟩ r config m, e.2.asWritten.IsNormal
  ordered : Value.entriesHaveOneOrder (RepairPlan.apply ⟨dropsUnknown, [], []⟩ r config m) = true

/-- The front matter of a note has an end, and what the usual repairs write of it is read as it is. -/
structure KeepsSteady (dropsUnknown : Bool) (r : Registry) (config : Config) (content : String) : Prop where
  ends : ¬ HoldsItself content
  steady : ∀ note m, parse content = .ok note → note.data = some m → IsSteady dropsUnknown r config m

/-- What is read back for the repaired front matter. -/
def settled (ρ : Nat → Nat) (dropsUnknown : Bool) (r : Registry) (config : Config) (m : Mapping) : Mapping :=
  placedEntries (repeatedIn (RepairPlan.written ⟨dropsUnknown, [], []⟩ r config m)) ρ
    (asWrittenEntries (RepairPlan.apply ⟨dropsUnknown, [], []⟩ r config m))

theorem isFieldValue_apply (h : ∀ e ∈ m, e.2.IsFieldValue) :
    ∀ e ∈ RepairPlan.apply ⟨dropsUnknown, [], []⟩ r config m, e.2.IsFieldValue :=
  RepairPlan.forall_mem_apply dropsUnknown r config (P := fun _ => Value.IsFieldValue)
    (fun _ _ => Value.isFieldValue_listed) h

theorem isLoaded_apply (h : (Value.map m).IsLoaded) :
    (Value.map (RepairPlan.apply ⟨dropsUnknown, [], []⟩ r config m)).IsLoaded := by
  obtain ⟨hkeys, hvalues⟩ := Value.isLoaded_map.1 h
  refine Value.isLoaded_map.2 ⟨RepairPlan.nodup_keys_apply hkeys dropsUnknown r config,
    RepairPlan.forall_mem_apply dropsUnknown r config (P := fun _ => Value.IsLoaded) (fun _ v hv => ?_) hvalues⟩
  cases v with
  | str s => exact .list (List.forall_mem_singleton.2 hv)
  | _ => exact hv

/-- The repaired front matter is read back from what is written for it. -/
theorem readsBack_apply (hm : (Value.map m).IsLoaded) (hsteady : IsSteady dropsUnknown r config m)
    (hshort : Value.entriesHaveLongInteger (RepairPlan.written ⟨dropsUnknown, [], []⟩ r config m) = false) :
    ReadsBack (.map (asWrittenEntries (RepairPlan.apply ⟨dropsUnknown, [], []⟩ r config m))) := by
  rw [RepairPlan.written, entriesHaveLongInteger_linkReferences] at hshort
  refine Yaml.readsBack_of_loaded (isLoaded_apply hm).asWritten (Value.isNormal_map.2 ?_) hsteady.kept
    ((Value.entriesHaveLongInteger_asWritten _).trans hshort)
  rw [Value.asWrittenEntries_eq_map, List.forall_mem_map]
  exact hsteady.normal

theorem headerText_congr {n : Mapping} (h : Yaml.Content.ofMapping n = Yaml.Content.ofMapping m)
    (hempty : n.isEmpty = m.isEmpty) : headerText n = headerText m := by
  rw [headerText, headerText, h, hempty]

theorem headerText_asWritten (h : OnlySets (repeatedIn m)) : headerText (asWrittenEntries m) = headerText m :=
  headerText_congr (Yaml.ofMapping_asWritten h) (by rw [Value.asWrittenEntries_eq_map, List.isEmpty_map])

theorem headerText_placed {ρ : Nat → Nat} (hρ : ρ.Injective) (h : OnlySets (repeatedIn m))
    (hread : ReadsBack (.map m)) :
    headerText (placedEntries (repeatedIn m) ρ m) = headerText m :=
  headerText_congr (Yaml.ofMapping_placed hρ h hread.2) (by rw [Yaml.placedEntries_eq_map, List.isEmpty_map])

/-- What is written shows the repaired front matter with links in its references. -/
theorem asWritten_written (h : ∀ e ∈ m, e.2.IsFieldValue) (dropsUnknown : Bool) (r : Registry) (config : Config) :
    asWrittenEntries (RepairPlan.written ⟨dropsUnknown, [], []⟩ r config m) =
      linkReferences (asWrittenEntries (RepairPlan.apply ⟨dropsUnknown, [], []⟩ r config m))
        (referencesOf (r.entryOf? config (RepairPlan.apply ⟨dropsUnknown, [], []⟩ r config m))) :=
  (linkReferences_asWritten (isFieldValue_apply h) _).symm

/-- The note that a repair writes is read as the repaired front matter, with lists for tuples and its sets at the
places of their anchors. -/
theorem parse_settled {content : String} {note : Note} (h : parse content = .ok note) (hm : note.data = some m)
    (hsteady : IsSteady dropsUnknown r config m)
    (hread : ReadsBack (.map (asWrittenEntries (RepairPlan.apply ⟨dropsUnknown, [], []⟩ r config m))))
    (hshort : Value.entriesHaveLongInteger (RepairPlan.written ⟨dropsUnknown, [], []⟩ r config m) = false) :
    ∃ ρ text, ρ.Injective ∧
      parse (assemble (headerText (RepairPlan.written ⟨dropsUnknown, [], []⟩ r config m)) note.body) =
      .ok ⟨some (settled ρ dropsUnknown r config m), note.body, [], text⟩ := by
  obtain ⟨_, hends, hsets, hnormal, -⟩ := hsteady
  obtain ⟨_, _, hsplit, -, -, -⟩ := exists_of_parse h hm
  have hlinks := asWritten_written (isFieldValue_of_parse h hm) dropsUnknown r config
  have hlinked := readsBack_linkReferences hread
    (referencesOf (r.entryOf? config (RepairPlan.apply ⟨dropsUnknown, [], []⟩ r config m)))
  rw [← headerText_asWritten hsets]
  rw [KeepsEnds, ← Yaml.ofMapping_asWritten hsets] at hends
  obtain ⟨ρ, text, hρ, hparse⟩ := parse_assemble (hlinks ▸ hlinked) hends (atLineEnd_of_split hsplit)
    ((stringify_apply hshort).trans (congrArg Except.ok (headerText_asWritten hsets).symm))
  refine ⟨ρ, text, hρ, hparse.trans ?_⟩
  rw [← repeatedIn, Yaml.repeatedIn_asWritten hsets, hlinks, normalEntries_placed ?_ hlinked, settled]
  rw [Value.asWrittenEntries_eq_map, List.forall_mem_map]
  exact hnormal

/-- To the repairs the front matter that is read is repaired, and they write the same for it. -/
theorem written_settled {ρ : Nat → Nat} (hm : m.keys.Nodup) (hfields : ∀ e ∈ m, e.2.IsFieldValue)
    (hread : ReadsBack (.map (asWrittenEntries (RepairPlan.apply ⟨dropsUnknown, [], []⟩ r config m)))) :
    RepairPlan.written ⟨dropsUnknown, [], []⟩ r config (settled ρ dropsUnknown r config m) =
      placedEntries (repeatedIn (RepairPlan.written ⟨dropsUnknown, [], []⟩ r config m)) ρ
        (asWrittenEntries (RepairPlan.written ⟨dropsUnknown, [], []⟩ r config m)) := by
  have hvalues : ∀ e ∈ RepairPlan.apply ⟨dropsUnknown, [], []⟩ r config m, ReadsBack e.2.asWritten := by
    have := fun e he => (Yaml.entriesReadBack_iff.1 hread.2 e he).2
    rwa [Value.asWrittenEntries_eq_map, List.forall_mem_map] at this
  have htexts : ∀ e ∈ RepairPlan.apply ⟨dropsUnknown, [], []⟩ r config m, ∀ s,
      placed (repeatedIn (RepairPlan.written ⟨dropsUnknown, [], []⟩ r config m)) ρ e.2.asWritten = .str s ↔
        e.2 = .str s :=
    fun e he s => (Yaml.placed_eq_str (hvalues e he)).trans
      ⟨(isFieldValue_apply hfields e he).eq_str, fun hs => by rw [hs]; rfl⟩
  obtain ⟨hrepaired, hentry⟩ := isRepaired_map
    (f := fun v => placed (repeatedIn (RepairPlan.written ⟨dropsUnknown, [], []⟩ r config m)) ρ v.asWritten)
    (RepairPlan.isRepaired_apply hm dropsUnknown r config) htexts
  have hsettled : settled ρ dropsUnknown r config m =
      (RepairPlan.apply ⟨dropsUnknown, [], []⟩ r config m).map fun (k, v) =>
        (k, placed (repeatedIn (RepairPlan.written ⟨dropsUnknown, [], []⟩ r config m)) ρ v.asWritten) := by
    rw [settled, Yaml.placedEntries_eq_map, Value.asWrittenEntries_eq_map, List.map_map]
    rfl
  rw [← hsettled] at hrepaired hentry
  rw [RepairPlan.written, RepairPlan.apply_eq_self hrepaired, hentry, asWritten_written hfields,
    ← linkReferences_placed fun e he => (Yaml.entriesReadBack_iff.1 hread.2 e he).2]
  rfl

/-- A second repair of a note changes nothing, where what the first one writes is read back. -/
theorem repair_twice {content : String} {rev : Revision} (h : repair ⟨dropsUnknown, [], []⟩ r config content = .ok rev)
    (hsteady : KeepsSteady dropsUnknown r config content) :
    repair ⟨dropsUnknown, [], []⟩ r config rev.content = .ok ⟨rev.content, false⟩ := by
  cases hparse : parse content with
  | error e => simp [repair, hparse, Except.mapError, bind, Except.bind] at h
  | ok note =>
    cases hm : note.data with
    | none =>
      have hsame := repair_of_no_data hparse hm ⟨dropsUnknown, [], []⟩ r config
      obtain rfl := Except.ok.inj (hsame.symm.trans h)
      exact hsame
    | some m =>
      have hsteady := hsteady.steady note m hparse hm
      have hfields := isFieldValue_of_parse hparse hm
      rw [repair_of_data hparse hm] at h
      split at h
      · cases h
      next hlong =>
        obtain rfl := Except.ok.inj h
        have hshort := Bool.not_eq_true _ ▸ hlong
        have hread := readsBack_apply (isLoaded_of_parse hparse hm) hsteady hshort
        have hlinked := asWritten_written hfields dropsUnknown r config ▸ readsBack_linkReferences hread _
        have hsets := Yaml.repeatedIn_asWritten hsteady.onlySets
        obtain ⟨ρ, text, hρ, hagain⟩ := parse_settled hparse hm hsteady hread hshort
        have hsame : headerText (placedEntries (repeatedIn (RepairPlan.written ⟨dropsUnknown, [], []⟩ r config m)) ρ
            (asWrittenEntries (RepairPlan.written ⟨dropsUnknown, [], []⟩ r config m))) =
            headerText (RepairPlan.written ⟨dropsUnknown, [], []⟩ r config m) := by
          rw [← hsets, headerText_placed hρ (hsets ▸ hsteady.onlySets) hlinked, headerText_asWritten hsteady.onlySets]
        rw [repair_of_data hagain rfl, written_settled (keys_nodup_of_parse hparse hm) hfields hread,
          Yaml.entriesHaveLongInteger_placed, Value.entriesHaveLongInteger_asWritten, if_neg hlong, hsame]
        simp

/-- A note whose front matter gets a list, a link and another order of its keys by the first repair. -/
theorem repair_twice_task :
    let content := "---\nid: i\nprojects: p\ntype: task\n---\ntext"
    ∃ rev, repair .default .standard .default content = .ok rev ∧ rev.changed = true ∧
      repair .default .standard .default rev.content = .ok ⟨rev.content, false⟩ := by
  have hparse : parse "---\nid: i\nprojects: p\ntype: task\n---\ntext" = .ok ⟨some [("id", .str "i"),
      ("projects", .str "p"), ("type", .str "task")], "\ntext", [], "id: i\nprojects: p\ntype: task\n"⟩ := by
    decide +kernel
  have hrepair : repair ⟨false, [], []⟩ .standard .default "---\nid: i\nprojects: p\ntype: task\n---\ntext" =
      .ok ⟨"---\ntype: task\nid: i\nprojects:\n  - \"[[p]]\"\n---\ntext", true⟩ := by decide +kernel
  refine ⟨_, hrepair, rfl, repair_twice hrepair ⟨by decide +kernel, fun note m hnote hm => ?_⟩⟩
  cases hparse.symm.trans hnote
  cases hm
  exact ⟨by decide +kernel, by unfold KeepsEnds; decide +kernel, by unfold OnlySets; decide +kernel,
    by unfold Value.IsNormal; decide +kernel, by decide +kernel⟩

/-- A date in a pair is written as a date, and found as one by the second repair, which writes it as a text. -/
theorem repair_pairs_twice :
    repair .default .empty .default "---\na: !!pairs [k: 2024-01-01]\n---\n" =
        .ok ⟨"---\na:\n  - - k\n    - 2024-01-01\n---\n", true⟩ ∧
      repair .default .empty .default "---\na:\n  - - k\n    - 2024-01-01\n---\n" =
        .ok ⟨"---\na:\n  - - k\n    - \"2024-01-01\"\n---\n", true⟩ := by
  decide +kernel

end Note

end NoteVault
