import NoteVault.Proofs.Index.Permuted
import NoteVault.Proofs.Registry
import NoteVault.Proofs.Validation

/-!
Types that nobody has registered are told in two ways, by a warning of each note that declares one and in a list of
such types with their notes. Both tell of the same notes.
-/
namespace NoteVault

/-- How many issues of a list tell of an unknown type. -/
def Issue.countUnknownType (issues : List Issue) : Nat := issues.countP (·.code = .unknownType)

namespace Registry

variable (r : Registry) (config : Config)

/-- Front matter is warned once of its type, if what the type stands for is not registered. -/
theorem countUnknownType_validate (m : Mapping) :
    Issue.countUnknownType (r.validate config m) = if (r.unknownType? config m).isSome then 1 else 0 := by
  unfold unknownType?
  cases hdeclared : m.declaredType? with
  | none =>
    rw [validate, hdeclared]
    rfl
  | some declared =>
    rw [Issue.countUnknownType, List.countP_eq_length_filter,
      filter_validate (fun _ _ => by simp [Issue.typeMapped, Issue.warning]) hdeclared, ← List.countP_eq_length_filter,
      verdict, schema?]
    cases hentry : r.entry? (config.resolve declared) with
    | none =>
      have hhas : r.has (config.resolve declared) = false := by rw [has_eq, hentry]; rfl
      simp [hhas, Issue.typeUnknown, Issue.warning]
    | some e =>
      have hhas : r.has (config.resolve declared) = true := by rw [has_eq, hentry]; rfl
      have hjudge :
          (e.schema.judge (m.put "type" (.str (config.resolve declared)))).countP (·.code = .unknownType) = 0 :=
        List.countP_eq_zero.2 fun issue hissue => by
          have hcode := e.schema.code_of_mem_judge hissue
          intro hunknown
          rw [of_decide_eq_true hunknown] at hcode
          exact absurd hcode (by decide)
      simpa [hhas] using hjudge

end Registry

namespace UnknownTypeUse

/-- The uses of types, which are given with the paths that declare them, the most frequent ones first. -/
def ranked (declared : List (String × String)) : List UnknownTypeUse :=
  ((Dictionary.grouped declared).map fun g => ⟨g.1, g.2⟩).mergeSort le

variable (declared : List (String × String))

theorem ranked_perm : (ranked declared).Perm ((Dictionary.grouped declared).map fun g => ⟨g.1, g.2⟩) :=
  List.mergeSort_perm _ _

theorem types_ranked_nodup : ((ranked declared).map (·.type)).Nodup := by
  rw [((ranked_perm declared).map _).nodup_iff, List.map_map]
  exact (Dictionary.keys_grouped declared ▸ Text.firstOccurrences_nodup _ : (Dictionary.grouped declared).keys.Nodup)

/-- A type stands with the paths that declare it, in their order, and there is one. -/
theorem paths_of_mem_ranked {u : UnknownTypeUse} (h : u ∈ ranked declared) :
    u.paths = (declared.filter (·.1 = u.type)).map (·.2) ∧ u.paths ≠ [] := by
  obtain ⟨g, hg, rfl⟩ := List.mem_map.1 ((ranked_perm declared).mem_iff.1 h)
  obtain ⟨type, htype, rfl⟩ := List.mem_map.1 hg
  obtain ⟨e, he, rfl⟩ := List.mem_map.1 (Text.mem_firstOccurrences.1 htype)
  refine ⟨rfl, List.ne_nil_of_mem (List.mem_map_of_mem (List.mem_filter.2 ⟨he, ?_⟩))⟩
  exact decide_eq_true rfl

/-- Every path that is given is listed as often as it was given. -/
theorem paths_ranked_perm : ((ranked declared).flatMap (·.paths)).Perm (declared.map (·.2)) := by
  have hgroups := (Dictionary.flatMap_grouped_perm declared).map (·.2)
  rw [List.map_flatMap] at hgroups
  refine ((ranked_perm declared).flatMap_right _).trans ?_
  rw [List.flatMap_map]
  refine List.Perm.trans (List.Perm.of_eq ?_) hgroups
  exact List.flatMap_congr fun g _ => by simp [Function.comp_def]

/-- More uses first, and of equally many the lower type. -/
theorem ranked_pairwise :
    (ranked declared).Pairwise fun a b => b.count < a.count ∨ a.count = b.count ∧ a.type < b.type := by
  have hle : (ranked declared).Pairwise fun a b => a.le b = true :=
    List.pairwise_mergeSort (fun a b c hab hbc => Text.rankLe_trans (a := (a.type, a.count)) (b := (b.type, b.count))
      (c := (c.type, c.count)) hab hbc) (fun a b => Text.rankLe_total (a.type, a.count) (b.type, b.count)) _
  refine (hle.and (List.pairwise_map.1 (types_ranked_nodup declared))).imp fun {a b} ⟨hab, hne⟩ => ?_
  obtain hcount | ⟨hcount, htype⟩ := Text.rankLe_iff (a := (a.type, a.count)) (b := (b.type, b.count)) |>.1 hab
  · exact .inl hcount
  · refine .inr ⟨hcount, ?_⟩
    by_contra hlt
    exact hne (String.le_antisymm htype (String.not_lt.1 hlt))

theorem sum_ranked : ((ranked declared).map (·.count)).sum = declared.length := by
  rw [← List.length_map (f := (·.2)), ← (paths_ranked_perm declared).length_eq, List.length_flatMap]
  rfl

end UnknownTypeUse

namespace VaultIndex

variable {r : Registry} {config : Config}

/-- The unknown type of a note of an index. -/
def unknownTypeIn? (r : Registry) (config : Config) (n : IndexedNote) : Option String :=
  n.frontMatter.bind (r.unknownType? config)

/-- The unknown types that notes declare, each with the path of its note. -/
def unknownTypesIn (r : Registry) (config : Config) (notes : List IndexedNote) : List (String × String) :=
  notes.filterMap fun n => (unknownTypeIn? r config n).map (·, n.path)

/-- What a note of an index is told of its type is what its file declares. -/
structure TellsType (r : Registry) (config : Config) (file : String × String) (n : IndexedNote) : Prop where
  path : n.path = file.1
  declared : ∃ note, Note.parse file.2 = .ok note ∧ unknownTypeIn? r config n = note.data.bind (r.unknownType? config)
  issues : Issue.countUnknownType n.issues = if (unknownTypeIn? r config n).isSome then 1 else 0

theorem tellsType_ofNote {file : String × String} {note : Note} (h : Note.parse file.2 = .ok note) :
    TellsType r config file (IndexedNote.ofNote r config file.1 note).1 := by
  obtain ⟨header, issue, rfl, -, hcode⟩ | ⟨header, body, _, entries, rfl, -, -, -⟩ := Note.parse_cases h
  · have hfault : issue.code ≠ .unknownType := by
      rw [hcode, Note.faultCode]
      split <;> decide
    refine ⟨rfl, ⟨_, h, rfl⟩, ?_⟩
    exact List.countP_eq_zero.2 fun other hother => by simpa [List.mem_singleton.1 hother] using hfault
  · generalize Value.normalEntries entries = m at h ⊢
    have hissues := r.countUnknownType_validate config m
    dsimp only [IndexedNote.ofNote, IndexedNote.ofFrontMatter]
    cases htype : m.declaredType? with
    | none =>
      have hnone : r.unknownType? config m = none := by rw [Registry.unknownType?, htype]; rfl
      rw [hnone] at hissues
      exact ⟨rfl, ⟨_, h, hnone.symm⟩, hissues⟩
    | some declared => exact ⟨rfl, ⟨_, h, rfl⟩, hissues⟩

theorem tellsType_readNote {file : String × String} {e : IndexedNote × List Reference}
    (h : readNote r config file = .ok e) : TellsType r config file e.1 := by
  obtain ⟨note, hparse, rfl⟩ := exists_of_readNote h
  exact tellsType_ofNote hparse

theorem paths_unknownTypesIn_sublist (notes : List IndexedNote) :
    ((unknownTypesIn r config notes).map (·.2)).Sublist (notes.map (·.path)) := by
  induction notes with
  | nil => exact .slnil
  | cons n notes ih =>
    rw [unknownTypesIn, List.filterMap_cons]
    cases unknownTypeIn? r config n with
    | none => exact ih.cons _
    | some type => exact ih.cons_cons _

theorem mem_unknownTypesIn {notes : List IndexedNote} {e : String × String} :
    e ∈ unknownTypesIn r config notes ↔ ∃ n ∈ notes, n.path = e.2 ∧ unknownTypeIn? r config n = some e.1 := by
  simp only [unknownTypesIn, List.mem_filterMap, Option.map_eq_some_iff]
  constructor
  · rintro ⟨n, hn, type, htype, rfl⟩
    exact ⟨n, hn, rfl, htype⟩
  · rintro ⟨n, hn, hpath, htype⟩
    exact ⟨n, hn, e.1, htype, Prod.ext rfl hpath⟩

theorem exists_unknownType_iff {n : IndexedNote}
    (h : Issue.countUnknownType n.issues = if (unknownTypeIn? r config n).isSome then 1 else 0) :
    (∃ issue ∈ n.issues, issue.code = .unknownType) ↔ ∃ type, unknownTypeIn? r config n = some type := by
  have hpos : 0 < Issue.countUnknownType n.issues ↔ ∃ issue ∈ n.issues, issue.code = .unknownType := by
    simp [Issue.countUnknownType, List.countP_pos_iff]
  rw [← hpos, h]
  cases unknownTypeIn? r config n <;> simp

/-- Each note that declares an unknown type has one issue that tells it, and other notes have none. -/
theorem length_unknownTypesIn {notes : List IndexedNote}
    (h : ∀ n ∈ notes, Issue.countUnknownType n.issues = if (unknownTypeIn? r config n).isSome then 1 else 0) :
    (unknownTypesIn r config notes).length = Issue.countUnknownType (notes.flatMap (·.issues)) := by
  induction notes with
  | nil => rfl
  | cons n notes ih =>
    obtain ⟨hn, hnotes⟩ := List.forall_mem_cons.1 h
    have hrest := ih hnotes
    rw [Issue.countUnknownType] at hn hrest
    rw [Issue.countUnknownType, List.flatMap_cons, List.countP_append, hn, ← hrest, unknownTypesIn, List.filterMap_cons]
    cases unknownTypeIn? r config n with
    | none => exact (Nat.zero_add _).symm
    | some type => exact Nat.add_comm _ _

/-- What the notes of an index declare is what is listed. -/
theorem unknownTypes_of_build {files : List (String × String)} {i : VaultIndex} (hpaths : (files.map (·.1)).Nodup)
    (h : build r config files = .ok i) :
    r.unknownTypes config files = .ok (UnknownTypeUse.ranked (unknownTypesIn r config i.notes.values)) := by
  obtain ⟨entries, hread, rfl⟩ := exists_entries_of_build h
  have hvalues := (values_ofNotes (paths_entries (hread.imp fun _ _ h => isRead_readNote h) ▸ hpaths)).2
  have hnotes : List.Forall₂ (fun file note => (r.unknownTypeOf? config file.2).map (file.1, ·) = .ok note) files
      (entries.map fun e => (e.1.path, unknownTypeIn? r config e.1)) := by
    refine List.forall₂_map_right_iff.2 (hread.imp fun file e he => ?_)
    obtain ⟨hpath, ⟨note, hparse, hdeclared⟩, -⟩ := tellsType_readNote he
    rw [Registry.unknownTypeOf?, hparse, hpath, hdeclared]
    rfl
  rw [Registry.unknownTypes_eq_ok hnotes, Registry.groupTypes_eq, UnknownTypeUse.ranked, unknownTypesIn, hvalues,
    List.filterMap_map, List.filterMap_map]
  rfl

/-- A list of unknown types tells the same as the issues of the notes of an index. -/
structure AgreesOnTypes (files : List (String × String)) (i : VaultIndex) (uses : List UnknownTypeUse) : Prop where
  /-- A note is listed exactly if it has an issue that tells so. -/
  listed : ∀ path, (∃ u ∈ uses, path ∈ u.paths) ↔
    ∃ n, i.notes.get? path = some n ∧ ∃ issue ∈ n.issues, issue.code = .unknownType
  /-- No note is listed twice. -/
  once : (uses.flatMap (·.paths)).Nodup
  /-- It stands with the type that its front matter declares, which may stand for another one. -/
  declared : ∀ u ∈ uses, ∀ path ∈ u.paths, ∃ content note m, (path, content) ∈ files ∧
    Note.parse content = .ok note ∧ note.data = some m ∧ m.get? "type" = some (.str u.type)
  nonempty : ∀ u ∈ uses, u.paths ≠ []
  /-- The notes of a type stand in the order of the files. -/
  ordered : ∀ u ∈ uses, u.paths.Sublist (files.map (·.1))
  types : (uses.map (·.type)).Nodup
  ranked : uses.Pairwise fun a b => b.count < a.count ∨ a.count = b.count ∧ a.type < b.type
  total : (uses.map (·.count)).sum = Issue.countUnknownType (i.notes.values.flatMap (·.issues))

theorem agreesOnTypes_of_build {files : List (String × String)} {i : VaultIndex} (hpaths : (files.map (·.1)).Nodup)
    (h : build r config files = .ok i) :
    i.AgreesOnTypes files (UnknownTypeUse.ranked (unknownTypesIn r config i.notes.values)) := by
  obtain ⟨entries, hread, rfl⟩ := exists_entries_of_build h
  have hpath := paths_entries (hread.imp fun _ _ h => isRead_readNote h)
  have hvalues := (values_ofNotes (hpath ▸ hpaths)).2
  have htold : ∀ n ∈ (ofNotes entries).notes.values, ∃ file ∈ files, TellsType r config file n := fun n hn => by
    rw [hvalues] at hn
    obtain ⟨e, he, rfl⟩ := List.mem_map.1 hn
    exact (exists_of_forall₂ (hread.imp fun _ _ h => tellsType_readNote h)).2 e he
  have hissues : ∀ n ∈ (ofNotes entries).notes.values,
      Issue.countUnknownType n.issues = if (unknownTypeIn? r config n).isSome then 1 else 0 := fun n hn => by
    obtain ⟨_, -, htells⟩ := htold n hn
    exact htells.issues
  have hfiles : (ofNotes entries).notes.values.map (·.path) = files.map (·.1) := by
    rw [hvalues, List.map_map]
    exact hpath
  generalize hdeclared : unknownTypesIn r config (ofNotes entries).notes.values = declared
  have hsublist : (declared.map (·.2)).Sublist (files.map (·.1)) :=
    hdeclared ▸ hfiles ▸ paths_unknownTypesIn_sublist _
  have hmem : ∀ {e}, e ∈ declared ↔ ∃ n ∈ (ofNotes entries).notes.values, n.path = e.2 ∧
      unknownTypeIn? r config n = some e.1 := hdeclared ▸ mem_unknownTypesIn
  have hlisted := UnknownTypeUse.paths_ranked_perm declared
  exact {
    listed := fun path => by
      rw [← List.mem_flatMap, hlisted.mem_iff, List.mem_map]
      simp only [hmem, (isSound_ofNotes entries).get?_iff]
      constructor
      · rintro ⟨e, ⟨n, hn, hpath, htype⟩, rfl⟩
        exact ⟨n, ⟨hn, hpath⟩, (exists_unknownType_iff (hissues n hn)).2 ⟨_, htype⟩⟩
      · rintro ⟨n, ⟨hn, hpath⟩, hissue⟩
        obtain ⟨type, htype⟩ := (exists_unknownType_iff (hissues n hn)).1 hissue
        exact ⟨(type, path), ⟨n, hn, hpath, htype⟩, rfl⟩
    once := hlisted.nodup_iff.2 (hpaths.sublist hsublist)
    declared := fun u hu path hpath => by
      rw [(UnknownTypeUse.paths_of_mem_ranked declared hu).1] at hpath
      obtain ⟨e, he, rfl⟩ := List.mem_map.1 hpath
      obtain ⟨he, htype⟩ := List.mem_filter.1 he
      obtain ⟨n, hn, hnpath, hunknown⟩ := hmem.1 he
      obtain ⟨file, hfile, hfpath, ⟨note, hparse, hnote⟩, -⟩ := htold n hn
      rw [hunknown] at hnote
      obtain ⟨m, hm, hunknown⟩ := Option.bind_eq_some_iff.1 hnote.symm
      refine ⟨file.2, note, m, ?_, hparse, hm, ?_⟩
      · rw [← hnpath, hfpath]
        exact hfile
      · rw [← of_decide_eq_true htype]
        exact (Mapping.declaredType?_eq_some_iff.1 (Option.filter_eq_some_iff.1 hunknown).1).1
    nonempty := fun u hu => (UnknownTypeUse.paths_of_mem_ranked declared hu).2
    ordered := fun u hu => by
      rw [(UnknownTypeUse.paths_of_mem_ranked declared hu).1]
      exact (List.filter_sublist.map _).trans hsublist
    types := UnknownTypeUse.types_ranked_nodup declared
    ranked := UnknownTypeUse.ranked_pairwise declared
    total := by rw [UnknownTypeUse.sum_ranked, ← hdeclared, length_unknownTypesIn hissues] }

end VaultIndex

namespace Registry

/-- Where the index of a vault is built its unknown types are told as well, and of the same notes. -/
theorem unknownTypes_agree {r : Registry} {config : Config} {files : List (String × String)} {i : VaultIndex}
    (hpaths : (files.map (·.1)).Nodup) (h : VaultIndex.build r config files = .ok i) :
    ∃ uses, r.unknownTypes config files = .ok uses ∧ i.AgreesOnTypes files uses :=
  ⟨_, VaultIndex.unknownTypes_of_build hpaths h, VaultIndex.agreesOnTypes_of_build hpaths h⟩

/-- A type that two notes declare comes before one of a single note, which stands for another type. A note with a known
type is not listed, nor are notes without a type. -/
theorem unknownTypes_agree_mapped :
    let files := [("a.md", "---\ntype: memo\n---"), ("b.md", "---\ntype: draft\n---"), ("c.md", "---\ntype: job\n---"),
      ("d.md", "---\ntype: draft\n---"), ("e.md", "---\nid: draft\n---"), ("f.md", "draft")]
    let config : Config := ⟨"1.0", [("memo", "note"), ("job", "task")], [], false⟩
    ∃ i uses, VaultIndex.build .standard config files = .ok i ∧ unknownTypes .standard config files = .ok uses ∧
      uses = [⟨"draft", ["b.md", "d.md"]⟩, ⟨"memo", ["a.md"]⟩] ∧ i.AgreesOnTypes files uses := by
  intro files config
  have hpaths : (files.map (·.1)).Nodup := by decide
  have hbuilt : ((VaultIndex.build .standard config files).toOption.any fun i =>
      VaultIndex.unknownTypesIn .standard config i.notes.values =
        [("memo", "a.md"), ("draft", "b.md"), ("draft", "d.md")]) = true := by decide +kernel
  have hranked : UnknownTypeUse.ranked [("memo", "a.md"), ("draft", "b.md"), ("draft", "d.md")] =
      [⟨"draft", ["b.md", "d.md"]⟩, ⟨"memo", ["a.md"]⟩] := by cbv
  clear_value files config
  obtain ⟨i, hi, hdeclared⟩ := exists_of_toOption_any hbuilt
  have huses := VaultIndex.unknownTypes_of_build hpaths hi
  rw [of_decide_eq_true hdeclared, hranked] at huses
  obtain ⟨uses, huses', hagree⟩ := unknownTypes_agree hpaths hi
  obtain rfl := Except.ok.inj (huses.symm.trans huses')
  exact ⟨i, _, hi, huses, rfl, hagree⟩

end Registry

end NoteVault
