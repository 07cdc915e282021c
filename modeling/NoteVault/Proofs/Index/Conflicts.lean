import NoteVault.Index.Conflicts
import NoteVault.Proofs.Index.Consistency

/-!
What the notes of an index are told of each other: whose identity other notes have as well, and which references
lead nowhere.
-/
namespace NoteVault.VaultIndex

/-- The note at a path has an identity. -/
def HasId (i : VaultIndex) (path identity : String) : Prop := (i.notes.get? path).bind (·.id) = some identity

instance (i : VaultIndex) (path identity : String) : Decidable (i.HasId path identity) :=
  inferInstanceAs (Decidable ((i.notes.get? path).bind (·.id) = some identity))

/-- Another note has the identity of a note. -/
def IsShared (i : VaultIndex) (path : String) : Prop :=
  ∃ identity other, i.HasId path identity ∧ other ≠ path ∧ i.HasId other identity

/-- The notes that have an identity, in the order of the index. -/
def holdersOf (i : VaultIndex) (identity : String) : List String := (i.notes.filter (·.2.id = some identity)).map (·.1)

/-- The notes that have an identity, but for one of them. -/
def othersWith (i : VaultIndex) (identity path : String) : List String := (i.holdersOf identity).filter (· ≠ path)

/-- No note has the identity that a reference names. -/
def IsDangling (i : VaultIndex) (e : Reference) : Prop := ∀ n ∈ i.notes.values, n.id ≠ some e.target

instance (i : VaultIndex) (e : Reference) : Decidable (i.IsDangling e) :=
  inferInstanceAs (Decidable (∀ n ∈ i.notes.values, n.id ≠ some e.target))

/-- The issues between notes that one note has. -/
def conflictsAt (i : VaultIndex) (path : String) : List Issue := (i.conflicts.get? path).getD []

theorem holders_eq (i : VaultIndex) : i.holders =
    (Text.firstOccurrences (i.notes.values.filterMap (·.id))).map fun identity => (identity, i.holdersOf identity) := by
  have hfold : i.holders = Dictionary.grouped (i.notes.filterMap fun e => e.2.id.map (·, e.1)) := by
    rw [← Dictionary.foldl_push, List.foldl_filterMap, holders]
    refine congrArg (fun f => i.notes.foldl f []) (funext₂ fun d ⟨path, n⟩ => ?_)
    dsimp only
    cases n.id <;> rfl
  have hkeys : (i.notes.filterMap fun e => e.2.id.map (·, e.1)).map (·.1) = i.notes.values.filterMap (·.id) := by
    rw [Dictionary.values, List.map_filterMap, List.filterMap_map]
    refine List.filterMap_congr fun e _ => ?_
    cases h : e.2.id <;> simp [h]
  have hvalues : ∀ identity, ((i.notes.filterMap fun e => e.2.id.map (·, e.1)).filter (·.1 = identity)).map (·.2) =
      i.holdersOf identity := by
    intro identity
    rw [holdersOf]
    induction i.notes with
    | nil => rfl
    | cons e rest ih =>
      cases hid : e.2.id with
      | none => simpa [hid] using ih
      | some other => by_cases ho : other = identity <;> simpa [hid, ho] using ih
  rw [hfold, Dictionary.grouped, hkeys]
  exact List.map_congr_left fun identity _ => by rw [hvalues]

/-- The issue of a note whose identity other notes have as well. -/
def repeatedIssues (i : VaultIndex) (path : String) : List Issue :=
  match (i.notes.get? path).bind (·.id) with
  | none => []
  | some identity =>
    if i.othersWith identity path = [] then [] else [Issue.idRepeated identity (i.othersWith identity path)]

/-- The issues of the references of a note that lead nowhere. -/
def danglingIssuesAt (i : VaultIndex) (path : String) : List Issue :=
  (i.references.filter fun e => e.source = path ∧ i.IsDangling e).map Issue.targetUnknown

theorem code_of_mem_repeatedIssues {i : VaultIndex} {path : String} {issue : Issue}
    (h : issue ∈ i.repeatedIssues path) :
    issue.code = .duplicateId := by
  unfold repeatedIssues at h
  split at h
  · cases h
  · split at h
    · cases h
    · rw [List.mem_singleton.1 h]
      rfl

theorem code_of_mem_danglingIssuesAt {i : VaultIndex} {path : String} {issue : Issue}
    (h : issue ∈ i.danglingIssuesAt path) :
    issue.code = .missingReference := by
  obtain ⟨e, -, rfl⟩ := List.mem_map.1 h
  rfl

theorem exists_of_mem_duplicateIssues {i : VaultIndex} {e : String × Issue} (h : e ∈ i.duplicateIssues) :
    ∃ identity others, e.2 = Issue.idRepeated identity others := by
  obtain ⟨⟨identity, paths⟩, -, h⟩ := List.mem_flatMap.1 h
  dsimp only at h
  split at h
  · cases h
  · obtain ⟨path, -, rfl⟩ := List.mem_map.1 h
    exact ⟨identity, _, rfl⟩

section Consistent

variable {i : VaultIndex}

theorem mem_holdersOf (hkeys : i.notes.keys.Nodup) {identity path : String} :
    path ∈ i.holdersOf identity ↔ i.HasId path identity := by
  simp only [holdersOf, HasId, List.mem_map, List.mem_filter, decide_eq_true_eq, Option.bind_eq_some_iff]
  constructor
  · rintro ⟨⟨_, n⟩, ⟨hn, hid⟩, rfl⟩
    exact ⟨n, Dictionary.get?_of_mem hkeys hn, hid⟩
  · rintro ⟨n, hn, hid⟩
    exact ⟨(path, n), ⟨Dictionary.mem_of_get? hn, hid⟩, rfl⟩

theorem nodup_holdersOf (hkeys : i.notes.keys.Nodup) (identity : String) : (i.holdersOf identity).Nodup :=
  hkeys.sublist (List.filter_sublist.map _)

/-- Fewer than two notes have an identity if only one note has it. -/
theorem othersWith_eq_nil_iff (hkeys : i.notes.keys.Nodup) {identity path : String} (h : path ∈ i.holdersOf identity) :
    i.othersWith identity path = [] ↔ (i.holdersOf identity).length < 2 := by
  have hnodup := nodup_holdersOf hkeys identity
  have hlength := List.length_erase_of_mem h
  have hpos := List.length_pos_of_mem h
  rw [hnodup.erase_eq_filter] at hlength
  have hothers : i.othersWith identity path = (i.holdersOf identity).filter (· != path) := by
    simp [othersWith, bne, Bool.beq_eq_decide_eq]
  rw [hothers, ← List.length_eq_zero_iff, hlength]
  omega

theorem filter_duplicateIssues (hkeys : i.notes.keys.Nodup) (path : String) :
    (i.duplicateIssues.filter (·.1 = path)).map (·.2) = i.repeatedIssues path := by
  have hgroup : (i.duplicateIssues.filter (·.1 = path)).map (·.2) =
      (Text.firstOccurrences (i.notes.values.filterMap (·.id))).flatMap fun identity =>
        if path ∈ i.holdersOf identity then
          if i.othersWith identity path = [] then [] else [Issue.idRepeated identity (i.othersWith identity path)]
        else [] := by
    rw [duplicateIssues, holders_eq, List.flatMap_map, List.filter_flatMap, List.map_flatMap]
    refine List.flatMap_congr fun identity _ => ?_
    dsimp only
    split
    next hlength =>
      split
      next hmem => rw [if_pos ((othersWith_eq_nil_iff hkeys hmem).2 hlength)]; rfl
      next => rfl
    next hlength =>
      refine (Dictionary.filter_keyed (nodup_holdersOf hkeys identity)
        (fun path => Issue.idRepeated identity (i.othersWith identity path)) path).trans ?_
      split
      next hmem => rw [if_neg fun h => hlength ((othersWith_eq_nil_iff hkeys hmem).1 h)]
      next => rfl
  -- the identities are all different, so only the note's own one adds something
  rw [hgroup, repeatedIssues]
  cases hid : (i.notes.get? path).bind (·.id) with
  | none =>
    refine List.flatMap_eq_nil_iff.2 fun identity _ => if_neg fun hmem => ?_
    rw [mem_holdersOf hkeys, HasId, hid] at hmem
    cases hmem
  | some identity =>
    have hmem := (mem_holdersOf hkeys).2 hid
    obtain ⟨n, hn, hn'⟩ := Option.bind_eq_some_iff.1 hid
    have hidentity : identity ∈ Text.firstOccurrences (i.notes.values.filterMap (·.id)) := by
      refine Text.mem_firstOccurrences.2 (List.mem_filterMap.2 ⟨n, ?_, hn'⟩)
      exact List.mem_map_of_mem (f := (·.2)) (Dictionary.mem_of_get? hn)
    rw [Dictionary.flatMap_of_unique (Text.firstOccurrences_nodup _) hidentity, if_pos hmem]
    intro other hother
    refine if_neg fun h => hother ?_
    rw [mem_holdersOf hkeys, HasId, hid] at h
    exact (Option.some.inj h).symm

theorem othersWith_eq (hkeys : i.notes.keys.Nodup) (identity path : String) :
    i.othersWith identity path = i.notes.keys.filter fun other => other ≠ path ∧ i.HasId other identity := by
  have hholders : i.holdersOf identity = i.notes.keys.filter (i.HasId · identity) := by
    rw [holdersOf, Dictionary.keys, List.filter_map]
    refine congrArg _ (List.filter_congr fun e he => ?_)
    simp [HasId, Dictionary.get?_of_mem hkeys he]
  rw [othersWith, hholders, List.filter_filter]
  exact List.filter_congr fun other _ => (Bool.decide_and _ _).symm

theorem isShared_iff (hkeys : i.notes.keys.Nodup) {path : String} : i.IsShared path ↔ i.repeatedIssues path ≠ [] := by
  unfold IsShared repeatedIssues HasId
  cases hid : (i.notes.get? path).bind (·.id) with
  | none => simp
  | some identity =>
    have hothers : i.othersWith identity path ≠ [] ↔ ∃ other, other ≠ path ∧ i.HasId other identity := by
      rw [ne_eq, List.eq_nil_iff_forall_not_mem, not_forall_not]
      refine exists_congr fun other => ?_
      rw [othersWith, List.mem_filter, mem_holdersOf hkeys, decide_eq_true_iff, and_comm]
    have hshared : (∃ shared other, some identity = some shared ∧ other ≠ path ∧
        (i.notes.get? other).bind (·.id) = some shared) ↔ ∃ other, other ≠ path ∧ i.HasId other identity := by
      simp [HasId]
    rw [hshared, ← hothers]
    dsimp only
    split <;> simp_all

/-- Identities are all different if no note shares its own. -/
theorem nodup_ids_iff (hkeys : i.notes.keys.Nodup) :
    (i.notes.values.filterMap (·.id)).Nodup ↔ ∀ path, ¬i.IsShared path := by
  have hnotes : i.notes.Nodup := List.Nodup.of_map _ hkeys
  rw [Dictionary.values, List.filterMap_map, List.Nodup, List.pairwise_filterMap]
  constructor
  · rintro h path ⟨identity, other, hpath, hne, hother⟩
    obtain ⟨n, hn, hid⟩ := Option.bind_eq_some_iff.1 hpath
    obtain ⟨m, hm, hid'⟩ := Option.bind_eq_some_iff.1 hother
    have hdifferent : (path, n) ≠ (other, m) := fun heq => hne (congrArg Prod.fst heq).symm
    exact @List.Pairwise.forall _ _ _ ⟨fun _ _ h x hx y hy heq => h y hy x hx heq.symm⟩ h
      _ (Dictionary.mem_of_get? hn) _ (Dictionary.mem_of_get? hm) hdifferent identity hid identity hid' rfl
  · intro h
    refine hnotes.pairwise_of_forall_ne fun a ha b hb hne x hx y hy heq => ?_
    refine h a.1 ⟨x, b.1, ?_, fun hpath => hne ?_, ?_⟩
    · rw [HasId, Dictionary.get?_of_mem hkeys ha]; exact hx
    · exact List.inj_on_of_nodup_map hkeys ha hb hpath.symm
    · rw [HasId, Dictionary.get?_of_mem hkeys hb, heq]; exact hy

theorem conflicts_eq (i : VaultIndex) : i.conflicts = Dictionary.grouped (i.duplicateIssues ++ i.danglingIssues) :=
  Dictionary.foldl_push _

theorem resolves_iff (hidentities : i.owners.keys = Text.firstOccurrences (i.notes.values.filterMap (·.id)))
    (e : Reference) :
    i.resolves e = true ↔ ¬i.IsDangling e := by
  rw [resolves, Dictionary.has_iff, hidentities, Text.mem_firstOccurrences, List.mem_filterMap]
  simp [IsDangling]

theorem danglingIssuesAt_ne_nil {path : String} :
    i.danglingIssuesAt path ≠ [] ↔ ∃ e ∈ i.references, e.source = path ∧ i.IsDangling e := by
  simp only [danglingIssuesAt, ne_eq, List.map_eq_nil_iff, List.filter_eq_nil_iff, decide_eq_true_eq, not_forall,
    not_not, exists_prop]

theorem mem_keys_conflicts {path : String} : path ∈ i.conflicts.keys ↔ i.conflictsAt path ≠ [] := by
  rw [conflictsAt, conflicts_eq, Dictionary.mem_keys_grouped]

theorem conflicts_eq_nil : i.conflicts = [] ↔ ∀ path, i.conflictsAt path = [] := by
  rw [← List.map_eq_nil_iff (f := (·.1)), List.eq_nil_iff_forall_not_mem]
  exact forall_congr' fun path => by rw [← Dictionary.keys, mem_keys_conflicts, not_not]

section

variable (hkeys : i.notes.keys.Nodup)
  (hidentities : i.owners.keys = Text.firstOccurrences (i.notes.values.filterMap (·.id)))
include hkeys hidentities

/-- What a note is told: first of its identity, then of its references. -/
theorem conflictsAt_eq (path : String) :
    i.conflictsAt path = i.repeatedIssues path ++ i.danglingIssuesAt path := by
  have hdangling : (i.danglingIssues.filter (·.1 = path)).map (·.2) = i.danglingIssuesAt path := by
    rw [danglingIssues, List.filter_map, List.map_map, List.filter_filter, danglingIssuesAt]
    refine congrArg _ (List.filter_congr fun e _ => ?_)
    have hresolves := resolves_iff hidentities e
    by_cases hd : i.IsDangling e <;> simp_all
  rw [conflictsAt, conflicts_eq, Dictionary.getD_grouped, List.filter_append, List.map_append,
    filter_duplicateIssues hkeys, hdangling]

theorem filter_duplicateId (path : String) :
    (i.conflictsAt path).filter (·.code = .duplicateId) = i.repeatedIssues path := by
  rw [conflictsAt_eq hkeys hidentities, List.filter_append,
    List.filter_eq_self.2 fun issue hissue => decide_eq_true (code_of_mem_repeatedIssues hissue),
    List.filter_eq_nil_iff.2 fun issue hissue => by simp [code_of_mem_danglingIssuesAt hissue], List.append_nil]

theorem filter_missingReference (path : String) :
    (i.conflictsAt path).filter (·.code = .missingReference) = i.danglingIssuesAt path := by
  rw [conflictsAt_eq hkeys hidentities, List.filter_append,
    List.filter_eq_nil_iff.2 fun issue hissue => by simp [code_of_mem_repeatedIssues hissue],
    List.filter_eq_self.2 fun issue hissue => decide_eq_true (code_of_mem_danglingIssuesAt hissue), List.nil_append]

theorem conflictsAt_eq_nil {path : String} :
    i.conflictsAt path = [] ↔ ¬i.IsShared path ∧ ∀ e ∈ i.references, e.source = path → ¬i.IsDangling e := by
  have hdangling : i.danglingIssuesAt path = [] ↔ ∀ e ∈ i.references, e.source = path → ¬i.IsDangling e := by
    rw [← not_iff_not, ← ne_eq, danglingIssuesAt_ne_nil]
    simp only [not_forall, not_not, exists_prop]
  rw [conflictsAt_eq hkeys hidentities, List.append_eq_nil_iff, isShared_iff hkeys, not_not, hdangling]

end

end Consistent

/-- The notes of an index are told exactly what is wrong between them. -/
structure TellsConflicts (i : VaultIndex) (files : List (String × String)) : Prop where
  /-- A note is told that its identity is repeated exactly if another note has it as well. -/
  shared : ∀ path, (∃ issue ∈ i.conflictsAt path, issue.code = .duplicateId) ↔ i.IsShared path
  /-- It is told once, and the other notes are named in the order of their files. -/
  others : ∀ path identity, i.HasId path identity → i.IsShared path →
    (i.conflictsAt path).filter (·.code = .duplicateId) =
      [Issue.idRepeated identity ((files.map (·.1)).filter fun other => other ≠ path ∧ i.HasId other identity)]
  /-- Each of its references that leads nowhere is told in its turn. -/
  dangling : ∀ path, (i.conflictsAt path).filter (·.code = .missingReference) =
    (i.references.filter fun e => e.source = path ∧ i.IsDangling e).map Issue.targetUnknown
  /-- Only notes with such an issue are listed, each once. -/
  listed : ∀ path, path ∈ i.conflicts.keys ↔
    ∃ issue ∈ i.conflictsAt path, issue.code = .duplicateId ∨ issue.code = .missingReference
  nodup : i.conflicts.keys.Nodup
  files : ∀ path ∈ i.conflicts.keys, path ∈ files.map (·.1)
  /-- Nothing is told if and only if identities are all different and every reference names one of them. -/
  none : i.conflicts = [] ↔
    (i.notes.values.filterMap (·.id)).Nodup ∧ ∀ e ∈ i.references, ∃ n ∈ i.notes.values, n.id = some e.target

theorem IsConsistent.tellsConflicts {i : VaultIndex} {files : List (String × String)} (hpaths : (files.map (·.1)).Nodup)
    (h : i.IsConsistent files) : i.TellsConflicts files := by
  have hkeys : i.notes.keys.Nodup := h.keys ▸ hpaths
  have hrepeated := filter_duplicateId hkeys h.identities
  exact {
    shared := fun path => by
      have hexists : (∃ issue ∈ i.conflictsAt path, issue.code = .duplicateId) ↔
          (i.conflictsAt path).filter (·.code = .duplicateId) ≠ [] := by simp [List.filter_eq_nil_iff]
      rw [hexists, hrepeated, isShared_iff hkeys]
    others := fun path identity hid hshared => by
      rw [isShared_iff hkeys] at hshared
      rw [hrepeated, ← h.keys, ← othersWith_eq hkeys]
      unfold repeatedIssues at hshared ⊢
      rw [hid] at hshared ⊢
      dsimp only at hshared ⊢
      split at hshared <;> simp_all
    dangling := filter_missingReference hkeys h.identities
    listed := fun path => by
      rw [mem_keys_conflicts, conflictsAt_eq hkeys h.identities, ne_eq, List.eq_nil_iff_forall_not_mem, not_forall_not]
      refine exists_congr fun issue => (and_iff_left_of_imp fun hissue => ?_).symm
      rw [List.mem_append] at hissue
      exact hissue.imp code_of_mem_repeatedIssues code_of_mem_danglingIssuesAt
    nodup := by
      rw [conflicts_eq, Dictionary.keys_grouped]
      exact Text.firstOccurrences_nodup _
    files := fun path hpath => by
      have hfile : ∃ n, i.notes.get? path = some n := by
        rw [mem_keys_conflicts, conflictsAt_eq hkeys h.identities, ne_eq, List.append_eq_nil_iff, not_and_or, ← ne_eq,
          ← isShared_iff hkeys, ← ne_eq, danglingIssuesAt_ne_nil] at hpath
        rcases hpath with ⟨identity, -, hid, -⟩ | ⟨e, he, rfl, -⟩
        · obtain ⟨n, hn, -⟩ := Option.bind_eq_some_iff.1 hid
          exact ⟨n, hn⟩
        · obtain ⟨n, hn, -⟩ := h.sources e he
          exact ⟨n, hn⟩
      obtain ⟨n, hn⟩ := hfile
      exact h.keys ▸ List.mem_map_of_mem (f := (·.1)) (Dictionary.mem_of_get? hn)
    none := by
      have hleads : (∀ path, ∀ e ∈ i.references, e.source = path → ¬i.IsDangling e) ↔
          ∀ e ∈ i.references, ∃ n ∈ i.notes.values, n.id = some e.target := by
        simp only [IsDangling, not_forall, not_not, exists_prop]
        exact ⟨fun hall e he => hall e.source e he rfl, fun hall _ e he _ => hall e he⟩
      simp only [conflicts_eq_nil, conflictsAt_eq_nil hkeys h.identities, forall_and, hleads, nodup_ids_iff hkeys] }

/-- What is told of the notes of a vault is sound and complete. -/
theorem build_tells_conflicts {r : Registry} {config : Config} {files : List (String × String)} {i : VaultIndex}
    (hpaths : (files.map (·.1)).Nodup) (h : build r config files = .ok i) : i.TellsConflicts files := by
  obtain ⟨entries, hread, rfl⟩ := exists_entries_of_build h
  exact (isConsistent_ofNotes hpaths (hread.imp fun _ _ h => isRead_readNote h)).tellsConflicts hpaths

/-- Three notes of one identity, the first of which names it and one that no note has. -/
theorem build_tells_conflicts_three :
    let files := [("a.md", "---\ntype: idea\nid: x\nprojects: ['[[q]]', '[[x]]']\n---"), ("b.md", "---\ntype: draft\nid: x\n---"),
      ("c.md", "---\ntype: draft\nid: x\n---")]
    ∃ i, build .standard .default files = .ok i ∧
      i.conflictsAt "a.md" = [Issue.idRepeated "x" ["b.md", "c.md"], Issue.targetUnknown ⟨"a.md", "q", "projects"⟩] ∧
      i.TellsConflicts files := by
  intro files
  have hpaths : (files.map (·.1)).Nodup := by decide
  have hbuilt : (build .standard .default files).toOption.any (fun i => i.conflictsAt "a.md" =
      [Issue.idRepeated "x" ["b.md", "c.md"], Issue.targetUnknown ⟨"a.md", "q", "projects"⟩]) = true := by decide +kernel
  clear_value files
  obtain ⟨i, hi, htold⟩ := exists_of_toOption_any hbuilt
  exact ⟨i, hi, of_decide_eq_true htold, build_tells_conflicts hpaths hi⟩

end NoteVault.VaultIndex
