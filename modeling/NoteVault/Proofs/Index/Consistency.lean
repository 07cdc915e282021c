import NoteVault.Index
import NoteVault.Proofs.Dictionary
import NoteVault.Proofs.Failure
import NoteVault.Proofs.Note.Parse
import NoteVault.Schema.Standard

/-!
An index agrees with itself and with the files that it was built from: its notes, the owners of identities, the
references and the counts, which are kept up to date side by side, all tell of the same notes.
-/
namespace NoteVault

theorem Issue.countP_warning (issues : List Issue) :
    issues.countP (!·.isError) = issues.countP (·.severity = .warning) := by
  refine congrArg (List.countP · issues) (funext fun i => ?_)
  unfold Issue.isError
  cases i.severity <;> rfl

/-- What the index may rely on in a note that has been read, whose references are given with it. -/
structure IndexedNote.IsRead (file : String × String) (n : IndexedNote) (references : List Reference) : Prop where
  path : n.path = file.1
  errors : n.errors = n.issues.countP (·.severity = .error)
  warnings : n.warnings = n.issues.countP (·.severity = .warning)
  isValid : n.isValid = true ↔ n.errors = 0
  parsed : ∃ note, Note.parse file.2 = .ok note ∧ (n.type = none ↔ note.data.bind Mapping.declaredType? = none)
  untyped : n.type = none → n.id = none ∧ n.frontMatter = none ∧ references = []
  sources : ∀ e ∈ references, e.source = n.path

/-- The counts of a note tell whether it has issues. -/
theorem IndexedNote.IsRead.issues_ne_nil_iff {file : String × String} {n : IndexedNote} {references : List Reference}
    (h : n.IsRead file references) : n.issues ≠ [] ↔ n.errors ≠ 0 ∨ n.warnings ≠ 0 := by
  have hcount := Issue.count_add n.issues
  rw [Issue.count, Issue.countP_warning] at hcount
  have hlength : n.errors + n.warnings = n.issues.length := by rw [h.errors, h.warnings]; exact hcount
  rw [← List.length_pos_iff, ← hlength]
  omega

namespace IndexedNote

theorem source_of_mem_references {m : Mapping} {source : String} {fields : List String} {e : Reference}
    (h : e ∈ m.references source fields) : e.source = source := by
  simp only [Mapping.references, List.mem_flatMap, List.mem_map] at h
  obtain ⟨_, _, _, _, rfl⟩ := h
  rfl

/-- Without front matter there is an error, so only notes with front matter are valid. -/
theorem isValid_ofIssues (path : String) (m : Option Mapping) (issues : List Issue)
    (h : m = none → ∃ i ∈ issues, i.isError = true) :
    (ofIssues path m issues).isValid = true ↔ (ofIssues path m issues).errors = 0 := by
  cases m with
  | some m => simp [ofIssues]
  | none =>
    obtain ⟨i, hi, he⟩ := h rfl
    have hpos : (Issue.count issues).1 ≠ 0 := Nat.pos_iff_ne_zero.1 (List.countP_pos_iff.2 ⟨i, hi, he⟩)
    simpa [ofIssues] using hpos

theorem isRead_ofNote {r : Registry} {config : Config} {file : String × String} {note : Note}
    (h : Note.parse file.2 = .ok note) :
    IsRead file (ofNote r config file.1 note).1 (ofNote r config file.1 note).2 := by
  obtain ⟨header, issue, rfl, herror, -⟩ | ⟨header, body, _, entries, rfl, -, -, -⟩ := Note.parse_cases h
  · have hvalid := isValid_ofIssues file.1 none [issue] fun _ =>
      ⟨issue, List.mem_singleton_self _, decide_eq_true herror⟩
    exact ⟨rfl, rfl, Issue.countP_warning _, hvalid, ⟨_, h, by simp [ofNote, Note.faulty, ofIssues]⟩,
      fun _ => ⟨rfl, rfl, rfl⟩, fun e he => absurd he (by simp [ofNote, Note.faulty])⟩
  · generalize Value.normalEntries entries = m at h ⊢
    have hvalid := isValid_ofIssues file.1 (some m) ([] ++ r.validate config m) nofun
    dsimp only [ofNote, ofFrontMatter]
    cases ht : m.declaredType? with
    | none =>
      exact ⟨rfl, rfl, Issue.countP_warning _, hvalid, ⟨_, h, by simp [ofIssues, ht]⟩, fun _ => ⟨rfl, rfl, rfl⟩,
        fun e he => absurd he (by simp)⟩
    | some declared =>
      exact ⟨rfl, rfl, Issue.countP_warning _, hvalid, ⟨_, h, by simp [typed, ht]⟩, nofun,
        fun e he => source_of_mem_references he⟩

end IndexedNote

namespace VaultIndex

open IndexedNote (IsRead)

/-- What is entered for a file is the note that it holds. -/
theorem exists_of_readNote {r : Registry} {config : Config} {file : String × String} {e : IndexedNote × List Reference}
    (h : readNote r config file = .ok e) :
    ∃ note, Note.parse file.2 = .ok note ∧ IndexedNote.ofNote r config file.1 note = e := by
  unfold readNote at h
  cases hp : Note.parse file.2 with
  | error _ => simp [hp, Except.mapError, bind, Except.bind] at h
  | ok note =>
    simp only [hp, Except.mapError, bind, Except.bind] at h
    split at h
    · cases h
    · exact ⟨note, rfl, Except.ok.inj h⟩

theorem isRead_readNote {r : Registry} {config : Config} {file : String × String} {e : IndexedNote × List Reference}
    (h : readNote r config file = .ok e) : IsRead file e.1 e.2 := by
  obtain ⟨note, hparse, rfl⟩ := exists_of_readNote h
  exact IndexedNote.isRead_ofNote hparse

/-- Notes and their references, in the order in which they are entered. -/
abbrev Entries := List (IndexedNote × List Reference)

variable (entries : Entries)

theorem ofNotes_concat (e : IndexedNote × List Reference) :
    ofNotes (entries ++ [e]) = (ofNotes entries).add e.1 e.2 := by
  rw [ofNotes, List.foldl_append]
  rfl

theorem notes_ofNotes : (ofNotes entries).notes = Dictionary.ofEntries (entries.map fun e => (e.1.path, e.1)) := by
  induction entries using List.reverseRecOn with
  | nil => rfl
  | append_singleton entries e ih =>
    rw [ofNotes_concat, List.map_append, List.map_singleton, Dictionary.ofEntries_concat, ← ih]
    rfl

/-- An identity goes to each note in turn that has it. -/
theorem owners_ofNotes :
    (ofNotes entries).owners = Dictionary.ofEntries (entries.filterMap fun e => e.1.id.map (·, e.1.path)) := by
  induction entries using List.reverseRecOn with
  | nil => rfl
  | append_singleton entries e ih =>
    rw [ofNotes_concat, List.filterMap_append, add, ih]
    cases hid : e.1.id with
    | none => simp [hid]
    | some identity => simp [hid, Dictionary.ofEntries_concat]

theorem references_ofNotes : (ofNotes entries).references = entries.flatMap (·.2) := by
  induction entries using List.reverseRecOn with
  | nil => rfl
  | append_singleton entries e ih => rw [ofNotes_concat, List.flatMap_append, add, ih, List.flatMap_singleton]

theorem stats_ofNotes :
    (ofNotes entries).stats =
      ⟨entries.length, entries.countP (·.1.isValid), (entries.map (·.1.errors)).sum,
        (entries.map (·.1.warnings)).sum⟩ := by
  induction entries using List.reverseRecOn with
  | nil => rfl
  | append_singleton entries e ih =>
    rw [ofNotes_concat, add, ih]
    by_cases hv : e.1.isValid <;> simp [VaultStats.count, hv]

/-- What holds of every index, also if paths repeat: notes stand at their own paths, and owners are notes. -/
structure IsSound (i : VaultIndex) : Prop where
  keys : i.notes.keys.Nodup
  path : ∀ e ∈ i.notes, e.2.path = e.1
  owned : ∀ identity path, i.owners.get? identity = some path → path ∈ i.notes.keys

theorem isSound_ofNotes : (ofNotes entries).IsSound where
  keys := by
    rw [notes_ofNotes, Dictionary.keys_ofEntries]
    exact Text.firstOccurrences_nodup _
  path := fun e he => by
    rw [notes_ofNotes] at he
    obtain ⟨_, -, rfl⟩ := List.mem_map.1 (Dictionary.mem_of_mem_ofEntries he)
    rfl
  owned := fun identity path h => by
    rw [owners_ofNotes] at h
    obtain ⟨e, he, hid⟩ := List.mem_filterMap.1 (Dictionary.mem_of_mem_ofEntries (Dictionary.mem_of_get? h))
    obtain ⟨_, -, heq⟩ := Option.map_eq_some_iff.1 hid
    rw [notes_ofNotes, Dictionary.keys_ofEntries, Text.mem_firstOccurrences, List.map_map]
    exact List.mem_map.2 ⟨e, he, congrArg Prod.snd heq⟩

theorem IsSound.get?_iff {i : VaultIndex} (h : i.IsSound) {path : String} {n : IndexedNote} :
    i.notes.get? path = some n ↔ n ∈ i.notes.values ∧ n.path = path := by
  constructor
  · intro hget
    have hmem := Dictionary.mem_of_get? hget
    exact ⟨List.mem_map_of_mem (f := (·.2)) hmem, h.path _ hmem⟩
  · rintro ⟨hn, rfl⟩
    obtain ⟨e, he, rfl⟩ := List.mem_map.1 hn
    exact Dictionary.get?_of_mem h.keys (h.path e he ▸ he)

theorem IsSound.eq_of_path {i : VaultIndex} (h : i.IsSound) {n m : IndexedNote} (hn : n ∈ i.notes.values)
    (hm : m ∈ i.notes.values)
    (hpath : n.path = m.path) : n = m :=
  Option.some.inj ((h.get?_iff.2 ⟨hn, hpath⟩).symm.trans (h.get?_iff.2 ⟨hm, rfl⟩))

/-- An index agrees with itself and with the files that it was built from. -/
structure IsConsistent (files : List (String × String)) (i : VaultIndex) : Prop where
  /-- One note for each path, in the order of the files. -/
  keys : i.notes.keys = files.map (·.1)
  path : ∀ e ∈ i.notes, e.2.path = e.1
  errors : ∀ n ∈ i.notes.values, n.errors = n.issues.countP (·.severity = .error)
  warnings : ∀ n ∈ i.notes.values, n.warnings = n.issues.countP (·.severity = .warning)
  isValid : ∀ n ∈ i.notes.values, n.isValid = true ↔ n.errors = 0
  /-- A note has no type exactly when its file declares none. -/
  type : ∀ file ∈ files, ∃ note n, Note.parse file.2 = .ok note ∧ i.notes.get? file.1 = some n ∧
    (n.type = none ↔ note.data.bind Mapping.declaredType? = none)
  untyped : ∀ n ∈ i.notes.values, n.type = none → n.id = none ∧ n.frontMatter = none ∧
    (∀ e ∈ i.references, e.source ≠ n.path) ∧ ∀ o ∈ i.owners, o.2 ≠ n.path
  /-- Identities stand in the order in which notes first have them, and the last of these notes is the owner. -/
  identities : i.owners.keys = Text.firstOccurrences (i.notes.values.filterMap (·.id))
  owner : ∀ identity, i.owners.get? identity = ((i.notes.values.filter (·.id = some identity)).getLast?).map (·.path)
  sources : ∀ e ∈ i.references, ∃ n, i.notes.get? e.source = some n ∧ n.type ≠ none
  stats : i.stats = ⟨i.notes.length, i.notes.values.countP (·.isValid), (i.notes.values.map (·.errors)).sum,
    (i.notes.values.map (·.warnings)).sum⟩
  issues : i.issuesByNote =
    (i.notes.filter fun e => e.2.errors ≠ 0 ∨ e.2.warnings ≠ 0).map fun e => (e.1, e.2.issues)

variable {entries}

theorem values_ofNotes (h : (entries.map (·.1.path)).Nodup) :
    (ofNotes entries).notes = entries.map (fun e => (e.1.path, e.1)) ∧
      (ofNotes entries).notes.values = entries.map (·.1) := by
  have hnotes : (ofNotes entries).notes = entries.map fun e => (e.1.path, e.1) := by
    rw [notes_ofNotes, Dictionary.ofEntries_of_nodup]
    simpa [Dictionary.keys, Function.comp_def] using h
  exact ⟨hnotes, by simp [hnotes, Dictionary.values, Function.comp_def]⟩

theorem identities_ofNotes (h : (entries.map (·.1.path)).Nodup) :
    (ofNotes entries).owners.keys = Text.firstOccurrences ((ofNotes entries).notes.values.filterMap (·.id)) := by
  rw [owners_ofNotes, Dictionary.keys_ofEntries, (values_ofNotes h).2, List.map_filterMap, List.filterMap_map]
  simp [Function.comp_def]

theorem owner_ofNotes (h : (entries.map (·.1.path)).Nodup) (identity : String) :
    (ofNotes entries).owners.get? identity =
      (((ofNotes entries).notes.values.filter (·.id = some identity)).getLast?).map (·.path) := by
  have hfilter : (entries.filterMap fun e => e.1.id.map (·, e.1.path)).filter (·.1 = identity) =
      ((entries.map (·.1)).filter (·.id = some identity)).map fun n => (identity, n.path) := by
    clear h
    induction entries with
    | nil => rfl
    | cons e rest ih =>
      cases hid : e.1.id with
      | none => simpa [hid] using ih
      | some other => by_cases ho : other = identity <;> simpa [hid, ho] using ih
  rw [owners_ofNotes, Dictionary.get?_ofEntries, hfilter, (values_ofNotes h).2, List.getLast?_map, Option.map_map]
  rfl

theorem paths_entries {files : List (String × String)}
    (h : List.Forall₂ (fun file e => IsRead file e.1 e.2) files entries) :
    entries.map (·.1.path) = files.map (·.1) := by
  induction h with
  | nil => rfl
  | cons hread _ ih => rw [List.map_cons, List.map_cons, ih, hread.path]

section Read

variable (hpaths : (entries.map (·.1.path)).Nodup) (hread : ∀ e ∈ entries, ∃ file, IsRead file e.1 e.2)
include hpaths

theorem get?_notes_ofNotes {e : IndexedNote × List Reference} (he : e ∈ entries) :
    (ofNotes entries).notes.get? e.1.path = some e.1 := by
  have hnotes := (values_ofNotes hpaths).1
  refine Dictionary.get?_of_mem ?_ (hnotes ▸ List.mem_map.2 ⟨e, he, rfl⟩)
  simpa [hnotes, Dictionary.keys, Function.comp_def] using hpaths

/-- Paths are different, so an entry is known by the path of its note. -/
theorem eq_of_path_eq {e f : IndexedNote × List Reference} (he : e ∈ entries) (hf : f ∈ entries)
    (heq : e.1.path = f.1.path) : e = f :=
  List.inj_on_of_nodup_map hpaths he hf heq

include hread

theorem exists_of_mem_values {n : IndexedNote} (hn : n ∈ (ofNotes entries).notes.values) :
    ∃ file references, (n, references) ∈ entries ∧ IsRead file n references := by
  rw [(values_ofNotes hpaths).2] at hn
  obtain ⟨e, he, rfl⟩ := List.mem_map.1 hn
  obtain ⟨file, hr⟩ := hread e he
  exact ⟨file, e.2, he, hr⟩

/-- A note without a type is not entered for an identity, and none of its fields is looked at for references. -/
theorem untyped_ofNotes {n : IndexedNote} (hn : n ∈ (ofNotes entries).notes.values) (ht : n.type = none) :
    n.id = none ∧ n.frontMatter = none ∧ (∀ e ∈ (ofNotes entries).references, e.source ≠ n.path) ∧
      ∀ o ∈ (ofNotes entries).owners, o.2 ≠ n.path := by
  obtain ⟨_, references, hn, hr⟩ := exists_of_mem_values hpaths hread hn
  obtain ⟨hid, hfront, rfl⟩ := hr.untyped ht
  refine ⟨hid, hfront, fun e he heq => ?_, fun o ho heq => ?_⟩
  · rw [references_ofNotes] at he
    obtain ⟨f, hf, he⟩ := List.mem_flatMap.1 he
    obtain ⟨_, hrf⟩ := hread f hf
    rw [eq_of_path_eq hpaths hf hn ((hrf.sources e he).symm.trans heq)] at he
    cases he
  · rw [owners_ofNotes] at ho
    obtain ⟨f, hf, hown⟩ := List.mem_filterMap.1 (Dictionary.mem_of_mem_ofEntries ho)
    obtain ⟨identity, hfid, rfl⟩ := Option.map_eq_some_iff.1 hown
    rw [eq_of_path_eq hpaths hf hn heq, hid] at hfid
    cases hfid

/-- Every reference is in a note of the index, one that has a type. -/
theorem sources_ofNotes {e : Reference} (he : e ∈ (ofNotes entries).references) :
    ∃ n, (ofNotes entries).notes.get? e.source = some n ∧ n.type ≠ none := by
  rw [references_ofNotes] at he
  obtain ⟨f, hf, he⟩ := List.mem_flatMap.1 he
  obtain ⟨_, hr⟩ := hread f hf
  refine ⟨f.1, hr.sources e he ▸ get?_notes_ofNotes hpaths hf, fun ht => ?_⟩
  rw [(hr.untyped ht).2.2] at he
  cases he

theorem issuesByNote_ofNotes :
    (ofNotes entries).issuesByNote =
      ((ofNotes entries).notes.filter fun e => e.2.errors ≠ 0 ∨ e.2.warnings ≠ 0).map fun e => (e.1, e.2.issues) := by
  refine congrArg _ (List.filter_congr fun e he => ?_)
  obtain ⟨_, _, -, hr⟩ := exists_of_mem_values hpaths hread (List.mem_map_of_mem (f := (·.2)) he)
  rw [Bool.eq_iff_iff, Bool.not_eq_true', decide_eq_true_iff, ← hr.issues_ne_nil_iff, ne_eq, ← List.isEmpty_iff,
    Bool.not_eq_true]

end Read

theorem isConsistent_ofNotes {files : List (String × String)} (hpaths : (files.map (·.1)).Nodup)
    (h : List.Forall₂ (fun file e => IsRead file e.1 e.2) files entries) : (ofNotes entries).IsConsistent files := by
  have hpath := paths_entries h
  have hnodup : (entries.map (·.1.path)).Nodup := hpath ▸ hpaths
  have hread : ∀ e ∈ entries, ∃ file, IsRead file e.1 e.2 := fun e he =>
    have ⟨file, _, hr⟩ := (exists_of_forall₂ h).2 e he
    ⟨file, hr⟩
  obtain ⟨hnotes, hvalues⟩ := values_ofNotes hnodup
  exact {
    keys := by simpa [hnotes, Dictionary.keys, Function.comp_def] using hpath
    path := (isSound_ofNotes entries).path
    errors := fun n hn =>
      have ⟨_, _, _, hr⟩ := exists_of_mem_values hnodup hread hn
      hr.errors
    warnings := fun n hn =>
      have ⟨_, _, _, hr⟩ := exists_of_mem_values hnodup hread hn
      hr.warnings
    isValid := fun n hn =>
      have ⟨_, _, _, hr⟩ := exists_of_mem_values hnodup hread hn
      hr.isValid
    type := fun file hf => by
      obtain ⟨e, he, hr⟩ := (exists_of_forall₂ h).1 file hf
      obtain ⟨note, hparse, htype⟩ := hr.parsed
      exact ⟨note, e.1, hparse, hr.path ▸ get?_notes_ofNotes hnodup he, htype⟩
    untyped := fun n => untyped_ofNotes hnodup hread
    identities := identities_ofNotes hnodup
    owner := owner_ofNotes hnodup
    sources := fun e => sources_ofNotes hnodup hread
    stats := by rw [stats_ofNotes, hvalues, hnotes]; simp [List.countP_map, Function.comp_def]
    issues := issuesByNote_ofNotes hnodup hread }

/-- An index is made of the notes of its files. -/
theorem exists_entries_of_build {r : Registry} {config : Config} {files : List (String × String)} {i : VaultIndex}
    (h : build r config files = .ok i) :
    ∃ entries, List.Forall₂ (fun file e => readNote r config file = .ok e) files entries ∧ ofNotes entries = i := by
  unfold build at h
  cases hm : files.mapM (readNote r config) with
  | error _ => simp [hm, Except.map] at h
  | ok entries => exact ⟨entries, mapM_eq_ok.1 hm, by simpa [hm, Except.map] using h⟩

/-- The index of files with different paths is consistent. -/
theorem build_consistent {r : Registry} {config : Config} {files : List (String × String)} {i : VaultIndex}
    (hpaths : (files.map (·.1)).Nodup) (h : build r config files = .ok i) : i.IsConsistent files := by
  unfold build at h
  cases hm : files.mapM (readNote r config) with
  | error _ => simp [hm, Except.map] at h
  | ok entries =>
    obtain rfl : ofNotes entries = i := by simpa [hm, Except.map] using h
    exact isConsistent_ofNotes hpaths ((mapM_eq_ok.1 hm).imp fun _ _ h => isRead_readNote h)

/-- Two notes of one identity, the first of which names it, a note without a type, and one without front matter. -/
theorem build_consistent_shared_identity :
    let files := [("a.md", "---\ntype: idea\nid: x\nprojects: '[[x]]'\n---"), ("b.md", "---\nid: x\ntype: draft\n---"),
      ("c.md", "---\nid: y\n---"), ("d.md", "id: x")]
    ∃ i, build .standard .default files = .ok i ∧ i.owners.get? "x" = some "b.md" ∧
      i.references = [⟨"a.md", "x", "projects"⟩] ∧ i.IsConsistent files := by
  intro files
  have hpaths : (files.map (·.1)).Nodup := by decide
  have hbuilt : (build .standard .default files).toOption.any (fun i =>
      i.owners.get? "x" = some "b.md" ∧ i.references = [⟨"a.md", "x", "projects"⟩]) = true := by decide +kernel
  clear_value files
  cases hb : build .standard .default files with
  | error e => simp [hb, Except.toOption] at hbuilt
  | ok i =>
    rw [hb, Except.toOption, Option.any_some, decide_eq_true_iff] at hbuilt
    exact ⟨i, rfl, hbuilt.1, hbuilt.2, build_consistent hpaths hb⟩

end VaultIndex

end NoteVault
