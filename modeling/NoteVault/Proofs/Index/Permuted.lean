import NoteVault.Index.UnknownTypes
import NoteVault.Proofs.Index.Conflicts

/-!
The verdicts on a vault do not depend on the order of its files. What does is the order in which notes are listed,
and which of several notes with one identity owns it.
-/
namespace NoteVault

/-- The higher number first, and of equal numbers the lower text. -/
def Text.rankLe (a b : String × Nat) : Bool := b.2 < a.2 || (a.2 = b.2 && Text.le a.1 b.1)

namespace Text

theorem rankLe_iff {a b : String × Nat} : rankLe a b = true ↔ b.2 < a.2 ∨ a.2 = b.2 ∧ a.1 ≤ b.1 := by
  simp [rankLe, le_iff]

theorem rankLe_trans {a b c : String × Nat} (hab : rankLe a b = true) (hbc : rankLe b c = true) :
    rankLe a c = true := by
  rw [rankLe_iff] at *
  obtain hab | ⟨hab, hab'⟩ := hab <;> obtain hbc | ⟨hbc, hbc'⟩ := hbc
  · exact .inl (hbc.trans hab)
  · exact .inl (hbc ▸ hab)
  · exact .inl (hab ▸ hbc)
  · exact .inr ⟨hab.trans hbc, String.le_trans hab' hbc'⟩

theorem rankLe_total (a b : String × Nat) : (rankLe a b || rankLe b a) = true := by
  rw [Bool.or_eq_true, rankLe_iff, rankLe_iff]
  rcases Nat.lt_trichotomy a.2 b.2 with h | h | h
  · exact .inr (.inl h)
  · exact (String.le_total a.1 b.1).imp (fun hle => .inr ⟨h, hle⟩) fun hle => .inr ⟨h.symm, hle⟩
  · exact .inl (.inl h)

theorem rankLe_antisymm {a b : String × Nat} (hab : rankLe a b = true) (hba : rankLe b a = true) : a = b := by
  rw [rankLe_iff] at hab hba
  have hnumber : a.2 = b.2 := by omega
  have htext : a.1 ≤ b.1 ∧ b.1 ≤ a.1 := ⟨(hab.resolve_left (by omega)).2, (hba.resolve_left (by omega)).2⟩
  exact Prod.ext (String.le_antisymm htext.1 htext.2) hnumber

/-- A ranking does not depend on the order of what is ranked. -/
theorem ranked_perm {items items' : List (String × Nat)} (h : items.Perm items') :
    items.mergeSort rankLe = items'.mergeSort rankLe := by
  have hranked : ∀ items : List (String × Nat), (items.mergeSort rankLe).Pairwise fun a b => rankLe a b = true :=
    List.pairwise_mergeSort (fun _ _ _ => rankLe_trans) rankLe_total
  refine List.Perm.eq_of_pairwise (fun a b _ _ => rankLe_antisymm) (hranked items) (hranked items') ?_
  exact (List.mergeSort_perm items rankLe).trans (h.trans (List.mergeSort_perm items' rankLe).symm)

end Text

namespace VaultIndex

/-- Two indexes give the same verdicts: they may list notes in different orders, and owners of identities that
several notes have may differ. -/
structure SameVerdicts (i j : VaultIndex) : Prop where
  notes : ∀ path, i.notes.get? path = j.notes.get? path
  stats : i.stats = j.stats
  references : i.references.Perm j.references
  /-- The references of each note stand in the same order. -/
  referencesOf : ∀ path, i.references.filter (·.source = path) = j.references.filter (·.source = path)
  identities : ∀ identity, i.owners.has identity = j.owners.has identity
  owners : (i.notes.values.filterMap (·.id)).Nodup → ∀ identity, i.owners.get? identity = j.owners.get? identity
  /-- The same notes are told that others have their identity, and of the same identity. -/
  repeated : ∀ path, ((i.conflictsAt path).filter (·.code = .duplicateId) = [] ∧
      (j.conflictsAt path).filter (·.code = .duplicateId) = []) ∨
    ∃ identity others others', others.Perm others' ∧
      (i.conflictsAt path).filter (·.code = .duplicateId) = [Issue.idRepeated identity others] ∧
      (j.conflictsAt path).filter (·.code = .duplicateId) = [Issue.idRepeated identity others']
  dangling : ∀ path, (i.conflictsAt path).filter (·.code = .missingReference) =
    (j.conflictsAt path).filter (·.code = .missingReference)

section Notes

variable {i j : VaultIndex} (hnotes : i.notes.Perm j.notes)
include hnotes

theorem othersWith_perm (identity path : String) : (i.othersWith identity path).Perm (j.othersWith identity path) :=
  ((hnotes.filter _).map _).filter _

theorem repeatedIssues_perm (hkeys : i.notes.keys.Nodup) (path : String) :
    (i.repeatedIssues path = [] ∧ j.repeatedIssues path = []) ∨
      ∃ identity others others', others.Perm others' ∧ i.repeatedIssues path = [Issue.idRepeated identity others] ∧
        j.repeatedIssues path = [Issue.idRepeated identity others'] := by
  unfold repeatedIssues
  rw [← Dictionary.get?_perm hnotes hkeys]
  cases (i.notes.get? path).bind (·.id) with
  | none => exact .inl ⟨rfl, rfl⟩
  | some identity =>
    have hothers := othersWith_perm hnotes identity path
    have halone : i.othersWith identity path = [] ↔ j.othersWith identity path = [] := by
      rw [← List.length_eq_zero_iff, hothers.length_eq, List.length_eq_zero_iff]
    dsimp only
    by_cases hnone : i.othersWith identity path = []
    · rw [if_pos hnone, if_pos (halone.1 hnone)]
      exact .inl ⟨rfl, rfl⟩
    · rw [if_neg hnone, if_neg fun h => hnone (halone.2 h)]
      exact .inr ⟨identity, _, _, hothers, rfl, rfl⟩

theorem danglingIssuesAt_perm {path : String}
    (hreferences : i.references.filter (·.source = path) = j.references.filter (·.source = path)) :
    i.danglingIssuesAt path = j.danglingIssuesAt path := by
  have hdangling : ∀ e, i.IsDangling e ↔ j.IsDangling e := fun e =>
    forall_congr' fun n => by rw [Dictionary.values, Dictionary.values, (hnotes.map _).mem_iff]
  have hsplit : ∀ k : VaultIndex, k.danglingIssuesAt path =
      ((k.references.filter (·.source = path)).filter (k.IsDangling ·)).map Issue.targetUnknown := fun k => by
    rw [danglingIssuesAt, List.filter_filter]
    refine congrArg _ (List.filter_congr fun e _ => ?_)
    rw [Bool.and_comm, Bool.decide_and]
  rw [hsplit, hsplit, hreferences]
  exact congrArg _ (List.filter_congr fun e _ => by rw [decide_eq_decide]; exact hdangling e)

end Notes

section Permuted

variable {entries entries' : Entries}

/-- The references of a note are those that were entered with it. -/
theorem references_ofNotes_filter (hpaths : (entries.map (·.1.path)).Nodup)
    (hsources : ∀ e ∈ entries, ∀ reference ∈ e.2, reference.source = e.1.path) (path : String) :
    (ofNotes entries).references.filter (·.source = path) =
      (Dictionary.get? (entries.map fun e => (e.1.path, e.2)) path).getD [] := by
  rw [references_ofNotes]
  induction entries with
  | nil => rfl
  | cons e rest ih =>
    obtain ⟨hpath, hpaths⟩ := List.nodup_cons.1 hpaths
    obtain ⟨hsource, hsources⟩ := List.forall_mem_cons.1 hsources
    rw [List.flatMap_cons, List.filter_append, ih hpaths hsources, List.map_cons, Dictionary.get?_cons]
    split
    next heq =>
      have hall : e.2.filter (·.source = path) = e.2 :=
        List.filter_eq_self.2 fun reference hr => decide_eq_true ((hsource reference hr).trans heq.symm)
      have hnone : Dictionary.get? (rest.map fun e => (e.1.path, e.2)) path = none := by
        rw [Dictionary.get?_eq_none_iff, heq]
        simpa [Dictionary.keys, Function.comp_def] using hpath
      rw [hall, hnone, Option.getD_none, List.append_nil, Option.getD_some]
    next hne =>
      have hnone : e.2.filter (·.source = path) = [] := List.filter_eq_nil_iff.2 fun reference hr heq =>
        hne ((of_decide_eq_true heq).symm.trans (hsource reference hr))
      rw [hnone, List.nil_append]

variable (hpaths : (entries.map (·.1.path)).Nodup) (h : entries.Perm entries')
include hpaths h

theorem notes_perm : (ofNotes entries).notes.Perm (ofNotes entries').notes := by
  rw [(values_ofNotes hpaths).1, (values_ofNotes ((h.map _).nodup_iff.1 hpaths)).1]
  exact h.map _

theorem sameVerdicts_ofNotes (hsources : ∀ e ∈ entries, ∀ reference ∈ e.2, reference.source = e.1.path) :
    SameVerdicts (ofNotes entries) (ofNotes entries') := by
  have hpaths' : (entries'.map (·.1.path)).Nodup := (h.map _).nodup_iff.1 hpaths
  have hnotes := notes_perm hpaths h
  have hget := Dictionary.get?_perm hnotes (isSound_ofNotes entries).keys
  have hreferences : ∀ path, (ofNotes entries).references.filter (·.source = path) =
      (ofNotes entries').references.filter (·.source = path) := fun path => by
    rw [references_ofNotes_filter hpaths hsources, references_ofNotes_filter hpaths'
      (fun e he => hsources e (h.mem_iff.2 he)), Dictionary.get?_perm (h.map _) ?_]
    simpa [Dictionary.keys, Function.comp_def] using hpaths
  have hids : ((ofNotes entries).notes.values.filterMap (·.id)).Perm
      ((ofNotes entries').notes.values.filterMap (·.id)) :=
    (hnotes.map _).filterMap _
  exact {
    notes := hget
    stats := by
      rw [stats_ofNotes, stats_ofNotes, h.length_eq, h.countP_eq, (h.map fun e => (e.1.errors : Int)).sum_eq,
        (h.map fun e => (e.1.warnings : Int)).sum_eq]
    references := by
      rw [references_ofNotes, references_ofNotes]
      exact h.flatMap_right _
    referencesOf := hreferences
    identities := fun identity => by
      rw [Bool.eq_iff_iff, Dictionary.has_iff, Dictionary.has_iff, identities_ofNotes hpaths,
        identities_ofNotes hpaths', Text.mem_firstOccurrences, Text.mem_firstOccurrences, hids.mem_iff]
    owners := fun hnodup identity => by
      have howners := h.filterMap fun e => e.1.id.map (·, e.1.path)
      have howned : (Dictionary.keys (entries.filterMap fun e => e.1.id.map (·, e.1.path))).Nodup := by
        rw [(values_ofNotes hpaths).2, List.filterMap_map] at hnodup
        simpa [Dictionary.keys, List.map_filterMap, Function.comp_def] using hnodup
      rw [owners_ofNotes, owners_ofNotes, Dictionary.ofEntries_of_nodup howned,
        Dictionary.ofEntries_of_nodup ((howners.map _).nodup_iff.1 howned), Dictionary.get?_perm howners howned]
    repeated := fun path => by
      rw [filter_duplicateId (isSound_ofNotes entries).keys (identities_ofNotes hpaths),
        filter_duplicateId (isSound_ofNotes entries').keys (identities_ofNotes hpaths')]
      exact repeatedIssues_perm hnotes (isSound_ofNotes entries).keys path
    dangling := fun path => by
      rw [filter_missingReference (isSound_ofNotes entries).keys (identities_ofNotes hpaths),
        filter_missingReference (isSound_ofNotes entries').keys (identities_ofNotes hpaths')]
      exact danglingIssuesAt_perm hnotes (hreferences path) }

end Permuted

end VaultIndex

namespace Registry

theorem groupTypes_eq (notes : List (String × Option String)) :
    groupTypes notes = Dictionary.grouped (notes.filterMap fun e => e.2.map (·, e.1)) := by
  rw [← Dictionary.foldl_push, List.foldl_filterMap, groupTypes]
  refine congrArg (fun f => notes.foldl f []) (funext₂ fun d ⟨path, type⟩ => ?_)
  dsimp only
  cases type <;> rfl

theorem unknownTypes_eq_ok {r : Registry} {config : Config} {files : List (String × String)}
    {notes : List (String × Option String)}
    (h : List.Forall₂ (fun file note => (unknownTypeOf? r config file.2).map (file.1, ·) = .ok note) files notes) :
    unknownTypes r config files = .ok (((groupTypes notes).map fun g => ⟨g.1, g.2⟩).mergeSort UnknownTypeUse.le) := by
  rw [unknownTypes, mapM_eq_ok.2 h]
  rfl

theorem counts_unknownTypes (groups : Dictionary (List String)) :
    ((groups.map fun g => UnknownTypeUse.mk g.1 g.2).mergeSort UnknownTypeUse.le).map (fun u => (u.type, u.count)) =
      (groups.map fun (type, paths) => (type, paths.length)).mergeSort Text.rankLe := by
  rw [List.map_mergeSort (r := UnknownTypeUse.le) (s := Text.rankLe) fun _ _ _ _ => rfl, List.map_map]
  rfl

/-- Which types are unknown, and how often each is used, does not depend on the order of the notes. -/
theorem unknownTypes_perm {r : Registry} {config : Config} {files files' : List (String × String)}
    (hperm : files.Perm files')
    (h : ∀ file ∈ files, ∃ note, Note.parse file.2 = .ok note) :
    ∃ uses uses', unknownTypes r config files = .ok uses ∧ unknownTypes r config files' = .ok uses' ∧
      uses.map (fun u => (u.type, u.count)) = uses'.map fun u => (u.type, u.count) := by
  have hread : ∀ file ∈ files, ∃ note, (unknownTypeOf? r config file.2).map (file.1, ·) = .ok note := fun file hf => by
    obtain ⟨note, hnote⟩ := h file hf
    refine ⟨(file.1, note.data.bind (unknownType? r config)), ?_⟩
    rw [unknownTypeOf?, hnote]
    rfl
  obtain ⟨notes, hnotes⟩ := exists_mapM_eq_ok.2 hread
  rw [mapM_eq_ok] at hnotes
  obtain ⟨notes', hnotes', hsame⟩ := List.perm_comp_forall₂ hperm.symm hnotes
  refine ⟨_, _, unknownTypes_eq_ok hnotes, unknownTypes_eq_ok hnotes', ?_⟩
  rw [counts_unknownTypes, counts_unknownTypes, groupTypes_eq, groupTypes_eq]
  exact Text.ranked_perm (Dictionary.counts_perm (hsame.symm.filterMap _))

end Registry

namespace VaultIndex

/-- The order of the files of a vault does not matter to the verdicts. -/
theorem build_perm {r : Registry} {config : Config} {files files' : List (String × String)} {i : VaultIndex}
    (hpaths : (files.map (·.1)).Nodup) (hperm : files.Perm files') (h : build r config files = .ok i) :
    (∃ j, build r config files' = .ok j ∧ SameVerdicts i j) ∧
      ∃ uses uses', r.unknownTypes config files = .ok uses ∧ r.unknownTypes config files' = .ok uses' ∧
        uses.map (fun u => (u.type, u.count)) = uses'.map fun u => (u.type, u.count) := by
  obtain ⟨entries, hread, rfl⟩ := exists_entries_of_build h
  obtain ⟨entries', hread', hentries⟩ := List.perm_comp_forall₂ hperm.symm hread
  have hsound := hread.imp fun _ _ h => isRead_readNote h
  refine ⟨⟨ofNotes entries', by rw [build, mapM_eq_ok.2 hread']; rfl,
    sameVerdicts_ofNotes (paths_entries hsound ▸ hpaths) hentries.symm fun e he => ?_⟩, Registry.unknownTypes_perm hperm fun file hf => ?_⟩
  · obtain ⟨_, -, hr⟩ := (exists_of_forall₂ hsound).2 e he
    exact hr.sources
  · obtain ⟨_, -, hr⟩ := (exists_of_forall₂ hsound).1 file hf
    obtain ⟨note, hnote, -⟩ := hr.parsed
    exact ⟨note, hnote⟩

/-- Of two notes with one identity the last one owns it, in either order. -/
theorem build_perm_reverse :
    let files := [("a.md", "---\ntype: idea\nid: x\nprojects: ['[[q]]', '[[x]]']\n---"), ("b.md", "---\ntype: draft\nid: x\n---")]
    ∃ i j, build .standard .default files = .ok i ∧ i.owners.get? "x" = some "b.md" ∧
      build .standard .default files.reverse = .ok j ∧ j.owners.get? "x" = some "a.md" ∧ SameVerdicts i j := by
  intro files
  have hpaths : (files.map (·.1)).Nodup := by decide
  have hfirst : ((build .standard .default files).toOption.any fun i => i.owners.get? "x" = some "b.md") = true := by
    decide +kernel
  have hsecond : ((build .standard .default files.reverse).toOption.any fun j => j.owners.get? "x" = some "a.md") = true := by
    decide +kernel
  clear_value files
  obtain ⟨i, hi, howner⟩ := exists_of_toOption_any hfirst
  obtain ⟨⟨j, hj, hsame⟩, -⟩ := build_perm hpaths (List.reverse_perm files).symm hi
  rw [hj] at hsecond
  exact ⟨i, j, hi, of_decide_eq_true howner, hj, of_decide_eq_true hsecond, hsame⟩

end VaultIndex

end NoteVault
