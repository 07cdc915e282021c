import NoteVault.Proofs.Graph.Neighbourhood

/-!
References that are collected by their targets, against a walk through all of them: the collection loses none, doubles
none and keeps those of one target in their order.
-/
namespace NoteVault.VaultGraph

variable (i : VaultIndex)

/-- There is a collection for each target, in the order in which targets are first named. -/
theorem keys_incoming : (ofIndex i).incoming.keys = Text.firstOccurrences (i.references.map (·.target)) := by
  rw [ofIndex, byTarget_eq, Dictionary.keys_grouped, List.map_map]
  rfl

/-- A reference occurs among those to its target as often as among all. -/
theorem count_referencesTo (e : Reference) : ((ofIndex i).referencesTo e.target).count e = i.references.count e := by
  rw [referencesTo_ofIndex]
  exact List.count_filter (decide_eq_true rfl)

/-- A reference occurs among those of its source as often as among all. -/
theorem count_referencesFrom (e : Reference) : ((ofIndex i).referencesFrom e.source).count e = i.references.count e :=
  List.count_filter (decide_eq_true rfl)

variable {i}

/-- The references to all targets, each target taken once, are all references. -/
theorem flatMap_referencesTo_perm {targets : List String} (hnodup : targets.Nodup)
    (h : ∀ e ∈ i.references, e.target ∈ targets) : (targets.flatMap (ofIndex i).referencesTo).Perm i.references := by
  have hscan : targets.flatMap (ofIndex i).referencesTo =
      targets.flatMap fun target => i.references.filter (·.target = target) :=
    List.flatMap_congr fun target _ => referencesTo_ofIndex i target
  rw [hscan]
  exact Dictionary.flatMap_filter_perm Reference.target hnodup h

/-- The collected references to an identity are those that name it, in the order of the index and as often as they stand
there. So a reference occurs equally often among those to its target, among those of its source and in the index, and
the collections of the different targets are the references of the index in another order. -/
theorem incoming_agrees (i : VaultIndex) :
    (∀ identity, (ofIndex i).referencesTo identity = i.references.filter (·.target = identity)) ∧
    (∀ e : Reference, ((ofIndex i).referencesTo e.target).count e = i.references.count e ∧
      ((ofIndex i).referencesFrom e.source).count e = i.references.count e) ∧
    (ofIndex i).incoming.keys = Text.firstOccurrences (i.references.map (·.target)) ∧
    ∀ targets : List String, targets.Nodup → (∀ target, target ∈ targets ↔ target ∈ i.references.map (·.target)) →
      (targets.flatMap (ofIndex i).referencesTo).Perm i.references := by
  refine ⟨referencesTo_ofIndex i, fun e => ⟨count_referencesTo i e, count_referencesFrom i e⟩, keys_incoming i, ?_⟩
  intro targets hnodup htargets
  exact flatMap_referencesTo_perm hnodup fun e he => (htargets e.target).2 (List.mem_map_of_mem he)

/-- A note names another one twice and itself in between, and the other names it too. -/
theorem incoming_agrees_parallel :
    let files := [("a.md", "---\ntype: idea\nid: x\nprojects: [y, x, y]\n---"), ("b.md", "---\ntype: idea\nid: y\nprojects: [x]\n---")]
    ∃ i, VaultIndex.build .standard .default files = .ok i ∧
      (ofIndex i).referencesTo "y" = [⟨"a.md", "y", "projects"⟩, ⟨"a.md", "y", "projects"⟩] ∧
      (ofIndex i).referencesTo "x" = [⟨"a.md", "x", "projects"⟩, ⟨"b.md", "x", "projects"⟩] ∧
      (["x", "y"].flatMap (ofIndex i).referencesTo).Perm i.references := by
  intro files
  have hbuilt : ((VaultIndex.build .standard .default files).toOption.any fun i =>
      (ofIndex i).referencesTo "y" = [⟨"a.md", "y", "projects"⟩, ⟨"a.md", "y", "projects"⟩] ∧
      (ofIndex i).referencesTo "x" = [⟨"a.md", "x", "projects"⟩, ⟨"b.md", "x", "projects"⟩] ∧
      i.references.map (·.target) = ["y", "x", "y", "x"]) = true := by decide +kernel
  clear_value files
  obtain ⟨i, hi, hany⟩ := exists_of_toOption_any hbuilt
  obtain ⟨hy, hx, htargets⟩ := of_decide_eq_true hany
  obtain ⟨-, -, -, hperm⟩ := incoming_agrees i
  refine ⟨i, hi, hy, hx, hperm ["x", "y"] (by decide) fun target => ?_⟩
  rw [htargets]
  simp only [List.mem_cons, List.not_mem_nil, or_false]
  tauto

end NoteVault.VaultGraph
