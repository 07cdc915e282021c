import NoteVault.Graph.Export
import NoteVault.Proofs.Index.Consistency

/-!
The exported graph has the references of the index as its arcs, none lost and none doubled. A reference that leads to a
note ends at the vertex of that note. One that leads nowhere ends at a vertex of its own that is flagged as missing, but
only where no note has its target as a path: paths and identities share the keys of the vertices.
-/
namespace NoteVault.VaultGraph

open VaultIndex

/-- The vertex of an identity that nobody owns. -/
def missingVertex (identity : String) : Vertex := ⟨identity, some identity, none, none, false, true⟩

/-- A reference leads nowhere, and no note has its target as a path. -/
def IsMissing (i : VaultIndex) (e : Reference) : Prop := ¬i.resolves e ∧ e.target ∉ i.notes.keys

instance (i : VaultIndex) (e : Reference) : Decidable (IsMissing i e) := inferInstanceAs (Decidable (_ ∧ _))

/-- The different identities that missing references name. -/
def missingTargets (i : VaultIndex) (references : List Reference) : List String :=
  Text.firstOccurrences ((references.filter (IsMissing i ·)).map (·.target))

section Vertices

variable {i : VaultIndex} {start : List Vertex}

theorem mem_missingTargets {references : List Reference} {identity : String} :
    identity ∈ missingTargets i references ↔ ∃ e ∈ references, IsMissing i e ∧ e.target = identity := by
  rw [missingTargets, Text.mem_firstOccurrences, List.mem_map]
  simp only [List.mem_filter, decide_eq_true_eq, and_assoc]

theorem missingTargets_concat (references : List Reference) (e : Reference) : missingTargets i (references ++ [e]) =
    if IsMissing i e ∧ e.target ∉ missingTargets i references then missingTargets i references ++ [e.target]
    else missingTargets i references := by
  have hnamed : e.target ∈ missingTargets i references ↔
      e.target ∈ (references.filter (IsMissing i ·)).map (·.target) := Text.mem_firstOccurrences
  unfold missingTargets at hnamed ⊢
  by_cases hmissing : IsMissing i e
  · rw [List.filter_append, List.filter_singleton, decide_eq_true hmissing, cond_true, List.map_append,
      List.map_singleton, Text.firstOccurrences_concat]
    simp only [hmissing, true_and, hnamed, ite_not]
  · rw [List.filter_append, List.filter_singleton, decide_eq_false hmissing, cond_false, List.append_nil,
      if_neg fun h => hmissing h.1]

theorem keys_missing (targets : List String) : (targets.map missingVertex).map (·.key) = targets := by
  rw [List.map_map]
  exact List.map_id _

/-- A vertex is added at the first of the missing references that name its identity. -/
theorem foldl_addMissing (hstart : start.map (·.key) = i.notes.keys) (references : List Reference) :
    references.foldl (addMissing i) start = start ++ (missingTargets i references).map missingVertex := by
  induction references using List.reverseRecOn with
  | nil => exact (List.append_nil start).symm
  | append_singleton references e ih =>
    have hany : ∀ vertices : List Vertex, vertices.any (·.key = e.target) = true ↔ e.target ∈ vertices.map (·.key) := by
      simp
    have hkept :
        (i.resolves e || (start ++ (missingTargets i references).map missingVertex).any (·.key = e.target)) = true ↔
          ¬(IsMissing i e ∧ e.target ∉ missingTargets i references) := by
      rw [Bool.or_eq_true, hany, List.map_append, hstart, keys_missing, List.mem_append, IsMissing]
      tauto
    rw [List.foldl_append, ih, List.foldl_cons, List.foldl_nil, addMissing, missingTargets_concat]
    by_cases hadded : IsMissing i e ∧ e.target ∉ missingTargets i references
    · rw [if_neg fun h => hkept.1 h hadded, if_pos hadded, List.map_append, List.append_assoc]
      rfl
    · rw [if_pos (hkept.2 hadded), if_neg hadded]

end Vertices

section Arcs

variable (i : VaultIndex)

/-- What an arc tells of its reference. -/
def ends (a : Arc) : String × String × String := (a.source, a.target, a.field)

/-- A reference with the key of the vertex at which it ends. -/
def endsOf (e : Reference) : String × String × String := (e.source, endOf i e, e.field)

theorem ends_parallelArcs (source target : String) : (parallelArcs i source target).map ends =
    ((i.references.filter (·.source = source)).filter (endOf i · = target)).map (endsOf i) := by
  have hboth : i.references.filter (fun e => e.source = source && endOf i e = target) =
      (i.references.filter (·.source = source)).filter (endOf i · = target) := by
    rw [List.filter_filter]
    exact List.filter_congr fun e _ => Bool.and_comm _ _
  rw [parallelArcs, hboth, List.mapIdx_eq_zipIdx_map, List.map_map]
  -- the number of an arc does not show in its ends
  generalize hitems : (i.references.filter (·.source = source)).filter (endOf i · = target) = items
  have hends : ∀ e ∈ items, endsOf i e = (source, target, e.field) := by
    intro e he
    rw [← hitems] at he
    obtain ⟨he, htarget⟩ := List.mem_filter.1 he
    obtain ⟨-, hsource⟩ := List.mem_filter.1 he
    rw [endsOf, of_decide_eq_true hsource, of_decide_eq_true htarget]
  have hitem : items.zipIdx.map Prod.fst = items := List.zipIdx_map_fst 0 items
  rw [List.map_congr_left hends]
  conv_rhs => rw [← hitem, List.map_map]
  rfl

/-- The arcs from a vertex are the references of its note. -/
theorem ends_arcsFrom_perm (source : String) :
    ((arcsFrom i source).map ends).Perm ((i.references.filter (·.source = source)).map (endsOf i)) := by
  rw [arcsFrom, List.map_flatMap]
  simp only [ends_parallelArcs]
  rw [← List.map_flatMap]
  refine (Dictionary.flatMap_filter_perm (endOf i) (Text.firstOccurrences_nodup _) fun e he => ?_).map _
  exact Text.mem_firstOccurrences.2 (List.mem_map_of_mem he)

variable {i}

/-- Vertices with different keys, one for each source, have every reference as one arc. -/
theorem ends_flatMap_perm {vertices : List Vertex} (hkeys : (vertices.map (·.key)).Nodup)
    (hsources : ∀ e ∈ i.references, e.source ∈ vertices.map (·.key)) :
    ((vertices.flatMap fun v => arcsFrom i v.key).map ends).Perm (i.references.map (endsOf i)) := by
  have hsplit := (Dictionary.flatMap_filter_perm (·.source) hkeys hsources).map (endsOf i)
  rw [List.map_flatMap, List.flatMap_map] at hsplit
  rw [List.map_flatMap]
  exact (List.Perm.flatMap_left vertices fun v _ => ends_arcsFrom_perm i v.key).trans hsplit

end Arcs

/-- The vertex at which a reference ends is that of a note, the one that owns its target where there is one, or flagged
as missing. -/
structure EndsAt (i : VaultIndex) (e : Reference) (v : Vertex) : Prop where
  key : v.key = endOf i e
  /-- A reference that leads nowhere is told from the others, unless its target is the path of a note. -/
  missing : v.missing = true ↔ ¬i.resolves e ∧ e.target ∉ i.notes.keys
  owned : ∀ path, i.owners.get? e.target = some path → ∃ n, i.notes.get? path = some n ∧ v = vertexOf n
  /-- An identity that nobody owns is taken for the path that it is. -/
  named : i.owners.get? e.target = none → ∀ n, i.notes.get? e.target = some n → v = vertexOf n

/-- The exported graph of an index has its notes as vertices, and its references as arcs between them and the identities
that nobody owns. -/
structure IsExport (files : List (String × String)) (i : VaultIndex) (g : ExportGraph) : Prop where
  keys : (g.vertices.map (·.key)).Nodup
  /-- Notes stand first, in the order of the files, then missing identities. -/
  vertices : g.vertices = i.notes.values.map vertexOf ++ (missingTargets i i.references).map missingVertex
  count : g.vertices.length = files.length + (missingTargets i i.references).length
  /-- Every reference is exported as one arc. -/
  arcs : (g.arcs.map ends).Perm (i.references.map (endsOf i))
  ends : ∀ e ∈ i.references, ∃ v ∈ g.vertices, EndsAt i e v

theorem resolves_iff_owner {i : VaultIndex} {e : Reference} : ¬i.resolves e ↔ i.owners.get? e.target = none := by
  rw [resolves, Dictionary.has_iff, Dictionary.get?_eq_none_iff]

section Consistent

variable {files : List (String × String)} {i : VaultIndex} (h : i.IsSound)
include h

theorem keys_vertexOf : (i.notes.values.map vertexOf).map (·.key) = i.notes.keys := by
  rw [List.map_map, Dictionary.values, List.map_map]
  exact List.map_congr_left fun e he => h.path e he

theorem vertices_exported : (ofIndex i).exported.vertices =
    i.notes.values.map vertexOf ++ (missingTargets i i.references).map missingVertex :=
  foldl_addMissing (keys_vertexOf h) i.references

theorem keys_exported : (ofIndex i).exported.vertices.map (·.key) = i.notes.keys ++ missingTargets i i.references := by
  rw [vertices_exported h, List.map_append, keys_vertexOf h, keys_missing]

theorem keys_exported_nodup : ((ofIndex i).exported.vertices.map (·.key)).Nodup := by
  rw [keys_exported h]
  refine List.nodup_append.2 ⟨h.keys, Text.firstOccurrences_nodup _, ?_⟩
  intro path hpath identity hidentity heq
  obtain ⟨e, -, hmissing, rfl⟩ := mem_missingTargets.1 hidentity
  exact hmissing.2 (heq ▸ hpath)

/-- The vertex of a note is exported under its path. -/
theorem exists_vertexOf {path : String} (hpath : path ∈ i.notes.keys) :
    ∃ n, i.notes.get? path = some n ∧ vertexOf n ∈ (ofIndex i).exported.vertices ∧ (vertexOf n).key = path := by
  obtain ⟨e, he, rfl⟩ := List.mem_map.1 hpath
  refine ⟨e.2, Dictionary.get?_of_mem h.keys he, ?_, h.path e he⟩
  rw [vertices_exported h]
  exact List.mem_append_left _ (List.mem_map_of_mem (List.mem_map_of_mem he))

theorem exists_endsAt {e : Reference} (he : e ∈ i.references) :
    ∃ v ∈ (ofIndex i).exported.vertices, EndsAt i e v := by
  cases howner : i.owners.get? e.target with
  | some path =>
    have hend : endOf i e = path := by rw [endOf, ownerOf?, howner, Option.getD_some]
    have hresolves : ¬¬i.resolves e := fun hnot => by
      rw [resolves_iff_owner.1 hnot] at howner
      cases howner
    obtain ⟨n, hn, hv, hkey⟩ := exists_vertexOf h (h.owned _ _ howner)
    refine ⟨vertexOf n, hv, hkey.trans hend.symm, ?_, ?_, ?_⟩
    · exact iff_of_false Bool.false_ne_true fun hmissing => hresolves hmissing.1
    · intro other hother
      rw [howner] at hother
      exact ⟨n, Option.some.inj hother ▸ hn, rfl⟩
    · intro hnone
      rw [howner] at hnone
      cases hnone
  | none =>
    have hend : endOf i e = e.target := by rw [endOf, ownerOf?, howner, Option.getD_none]
    have hresolves : ¬i.resolves e := resolves_iff_owner.2 howner
    by_cases hpath : e.target ∈ i.notes.keys
    · obtain ⟨n, hn, hv, hkey⟩ := exists_vertexOf h hpath
      refine ⟨vertexOf n, hv, hkey.trans hend.symm, ?_, ?_, ?_⟩
      · exact iff_of_false Bool.false_ne_true fun hmissing => hmissing.2 hpath
      · intro path howned
        rw [howner] at howned
        cases howned
      · intro _ m hm
        rw [Option.some.inj (hm.symm.trans hn)]
    · refine ⟨missingVertex e.target, ?_, hend.symm, ?_, ?_, ?_⟩
      · rw [vertices_exported h]
        refine List.mem_append_right _ (List.mem_map_of_mem ?_)
        exact mem_missingTargets.2 ⟨e, he, ⟨hresolves, hpath⟩, rfl⟩
      · exact iff_of_true rfl ⟨hresolves, hpath⟩
      · intro path howned
        rw [howner] at howned
        cases howned
      · intro _ n hn
        rw [Dictionary.get?_eq_none_iff.2 hpath] at hn
        cases hn

end Consistent

/-- The export of an index has every reference once, and tells those that lead to a note from those that lead nowhere,
as far as no note has the target of such a reference as its path. -/
theorem exported_of_build {r : Registry} {config : Config} {files : List (String × String)} {i : VaultIndex}
    (hpaths : (files.map (·.1)).Nodup) (h : build r config files = .ok i) : IsExport files i (ofIndex i).exported := by
  obtain ⟨entries, hread, rfl⟩ := exists_entries_of_build h
  have hsound := isSound_ofNotes entries
  have hconsistent := isConsistent_ofNotes hpaths (hread.imp fun _ _ h => isRead_readNote h)
  have hsources : ∀ e ∈ (ofNotes entries).references,
      e.source ∈ (ofIndex (ofNotes entries)).exported.vertices.map (·.key) := by
    intro e he
    obtain ⟨n, hn, -⟩ := hconsistent.sources e he
    rw [keys_exported hsound]
    exact List.mem_append_left _ (List.mem_map_of_mem (f := (·.1)) (Dictionary.mem_of_get? hn))
  have hcount : (ofIndex (ofNotes entries)).exported.vertices.length =
      files.length + (missingTargets (ofNotes entries) (ofNotes entries).references).length := by
    rw [← List.length_map (·.key), keys_exported hsound, List.length_append, hconsistent.keys, List.length_map]
  exact {
    keys := keys_exported_nodup hsound
    vertices := vertices_exported hsound
    count := hcount
    arcs := ends_flatMap_perm (keys_exported_nodup hsound) hsources
    ends := fun e he => exists_endsAt hsound he }

/-- A note that names an identity that it repeats, one that nobody owns, and one that nobody owns but that is the path
of a note. -/
theorem exported_of_build_path :
    let files := [("a.md", "---\ntype: idea\nprojects: [y, q, y, b.md]\n---"), ("b.md", "---\ntype: idea\nid: y\n---")]
    ∃ i, build .standard .default files = .ok i ∧
      (ofIndex i).exported.arcs = [⟨"a.md", "b.md", 0, "projects"⟩, ⟨"a.md", "b.md", 1, "projects"⟩,
        ⟨"a.md", "b.md", 2, "projects"⟩, ⟨"a.md", "q", 0, "projects"⟩] ∧
      (ofIndex i).exported.vertices.map (fun v => (v.key, v.missing)) = [("a.md", false), ("b.md", false), ("q", true)] ∧
      IsExport files i (ofIndex i).exported := by
  intro files
  have hpaths : (files.map (·.1)).Nodup := by decide
  have hbuilt : ((build .standard .default files).toOption.any fun i =>
      (ofIndex i).exported.arcs = [⟨"a.md", "b.md", 0, "projects"⟩, ⟨"a.md", "b.md", 1, "projects"⟩,
        ⟨"a.md", "b.md", 2, "projects"⟩, ⟨"a.md", "q", 0, "projects"⟩] ∧
      (ofIndex i).exported.vertices.map (fun v => (v.key, v.missing)) =
        [("a.md", false), ("b.md", false), ("q", true)]) = true := by decide +kernel
  clear_value files
  obtain ⟨i, hi, hexported⟩ := exists_of_toOption_any hbuilt
  obtain ⟨harcs, hvertices⟩ := of_decide_eq_true hexported
  exact ⟨i, hi, harcs, hvertices, exported_of_build hpaths hi⟩

/-- A reference that leads nowhere does not end at a vertex that is flagged as missing where its target is the path of a
note, and there are fewer vertices than notes and identities that nobody owns. -/
theorem exported_path_not_missing :
    ∃ i, build .standard .default [("a.md", "---\ntype: idea\nprojects: [b.md]\n---\n"),
        ("b.md", "---\ntype: idea\nid: y\n---\n")] = .ok i ∧
      i.references = [⟨"a.md", "b.md", "projects"⟩] ∧ i.owners.get? "b.md" = none ∧
      (ofIndex i).exported.arcs = [⟨"a.md", "b.md", 0, "projects"⟩] ∧
      (ofIndex i).exported.vertices.map (fun v => (v.key, v.missing)) = [("a.md", false), ("b.md", false)] := by
  have hbuilt : ((build .standard .default [("a.md", "---\ntype: idea\nprojects: [b.md]\n---\n"),
      ("b.md", "---\ntype: idea\nid: y\n---\n")]).toOption.any fun i =>
      i.references = [⟨"a.md", "b.md", "projects"⟩] ∧ i.owners.get? "b.md" = none ∧
      (ofIndex i).exported.arcs = [⟨"a.md", "b.md", 0, "projects"⟩] ∧
      (ofIndex i).exported.vertices.map (fun v => (v.key, v.missing)) = [("a.md", false), ("b.md", false)]) = true := by
    decide +kernel
  obtain ⟨i, hi, hexported⟩ := exists_of_toOption_any hbuilt
  exact ⟨i, hi, of_decide_eq_true hexported⟩

end NoteVault.VaultGraph
