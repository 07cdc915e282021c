import NoteVault.Proofs.Config
import NoteVault.Proofs.Text.Joined

/-!
Problems of settings. A value is taken for settings exactly when all its parts have their shape. Every part that has
not is told, and settings that are written as a table are read back as they were.
-/
namespace NoteVault

/-- The place of a problem among those of a table. -/
def ConfigProblem.rank : ConfigProblem → Nat
  | unknownKeys _ => 0
  | version => 1
  | typeMappings => 2
  | excludeGlobs => 3
  | validation => 4
  | unknownValidationKeys _ => 5
  | warnOnMappedTypes => 6

/-- The keys that a problem names. -/
def ConfigProblem.keys : ConfigProblem → List String
  | unknownKeys keys | unknownValidationKeys keys => keys
  | _ => []

namespace Config

def IsText (v : Value) : Prop := ∃ s, v.bare = .str s

def AreTexts (v : Value) : Prop := ∃ items, v.bare = .list items ∧ ∀ w ∈ items, IsText w

def IsTextTable (v : Value) : Prop := ∃ entries, v.bare = .map entries ∧ ∀ e ∈ entries, IsText e.2

def IsTruth (v : Value) : Prop := ∃ b, v.bare = .bool b

/-- Every part that a table of settings has is of its kind, and there are no other parts. -/
structure HasShape (m : Mapping) : Prop where
  keys : ∀ key ∈ m.keys, key ∈ ["version", "type_mappings", "exclude_globs", "validation"]
  version : ∀ v, m.get? "version" = some v → IsText v
  typeMappings : ∀ v, m.get? "type_mappings" = some v → IsTextTable v
  excludeGlobs : ∀ v, m.get? "exclude_globs" = some v → AreTexts v
  validation : ∀ v, m.get? "validation" = some v → ∃ t : Mapping, v.bare = .map t ∧
    (∀ key ∈ t.keys, key = "warn_on_mapped_types") ∧ ∀ w, t.get? "warn_on_mapped_types" = some w → IsTruth w

/-- The keys of a table that are not known, each as often as the table has it, in the order of code points. -/
structure AreStrange (known : List String) (m : Mapping) (keys : List String) : Prop where
  perm : keys.Perm (m.keys.filter (· ∉ known))
  sorted : keys.Pairwise (· ≤ ·)

/-- A part of a table does not have its shape. -/
inductive Violates (m : Mapping) : ConfigProblem → Prop
  | unknownKeys {keys} (h : AreStrange tableKeys m keys) (hne : keys ≠ []) : Violates m (.unknownKeys keys)
  | version {v} (hget : m.get? "version" = some v) (h : ¬ IsText v) : Violates m .version
  | typeMappings {v} (hget : m.get? "type_mappings" = some v) (h : ¬ IsTextTable v) : Violates m .typeMappings
  | excludeGlobs {v} (hget : m.get? "exclude_globs" = some v) (h : ¬ AreTexts v) : Violates m .excludeGlobs
  | validation {v} (hget : m.get? "validation" = some v) (h : ∀ t, v.bare ≠ .map t) : Violates m .validation
  | unknownValidationKeys {v keys} {t : Mapping} (hget : m.get? "validation" = some v) (ht : v.bare = .map t)
    (h : AreStrange validationKeys t keys) (hne : keys ≠ []) : Violates m (.unknownValidationKeys keys)
  | warnOnMappedTypes {v w} {t : Mapping} (hget : m.get? "validation" = some v) (ht : v.bare = .map t)
    (hwarn : t.get? "warn_on_mapped_types" = some w) (h : ¬ IsTruth w) : Violates m .warnOnMappedTypes

variable {m : Mapping} {c : Config} {v : Value}

section Readers

theorem exists_mapM_eq_some {α β : Type} {f : α → Option β} {xs : List α} :
    (∃ ys, xs.mapM f = some ys) ↔ ∀ x ∈ xs, ∃ y, f x = some y := by
  induction xs with
  | nil => simp
  | cons x xs ih =>
    rw [List.forall_mem_cons, ← ih]
    simp only [List.mapM_cons, Option.bind_eq_bind, Option.bind_eq_some_iff, Option.pure_def, Option.some.injEq]
    constructor
    · rintro ⟨_, y, hy, ys, hys, -⟩
      exact ⟨⟨y, hy⟩, ys, hys⟩
    · rintro ⟨⟨y, hy⟩, ys, hys⟩
      exact ⟨y :: ys, y, hy, ys, hys, rfl⟩

theorem exists_text?_iff : (∃ s, text? v = some s) ↔ IsText v := by
  rw [text?, IsText]
  cases v.bare <;> simp

theorem exists_truth?_iff : (∃ b, truth? v = some b) ↔ IsTruth v := by
  rw [truth?, IsTruth]
  cases v.bare <;> simp

theorem exists_table?_iff : (∃ t, table? v = some t) ↔ ∃ t, v.bare = .map t := by
  rw [table?]
  cases v.bare <;> simp

theorem table?_eq_some_iff {t : Mapping} : table? v = some t ↔ v.bare = .map t := by
  rw [table?]
  cases v.bare <;> simp

theorem exists_texts?_iff : (∃ ts, texts? v = some ts) ↔ AreTexts v := by
  rw [texts?, AreTexts]
  cases v.bare <;> simp [exists_mapM_eq_some, exists_text?_iff]

theorem exists_textTable?_iff : (∃ ts, textTable? v = some ts) ↔ IsTextTable v := by
  rw [textTable?, IsTextTable]
  cases v.bare <;> simp [exists_mapM_eq_some, exists_text?_iff]

end Readers

/-- The part of the table that is looked at for warnings: none where it is missing or no table. -/
def validationOf (m : Mapping) : Mapping := (setting m "validation" table? [] .validation).1

theorem areStrange_strangeKeys (known : List String) (m : Mapping) : AreStrange known m (strangeKeys known m) :=
  ⟨Text.sorted_perm _, (Text.sorted_pairwise _).imp Text.le_iff.1⟩

theorem AreStrange.eq_strangeKeys {known keys : List String} (h : AreStrange known m keys) :
    keys = strangeKeys known m :=
  have hkeys := areStrange_strangeKeys known m
  (h.perm.trans hkeys.perm.symm).eq_of_pairwise (fun _ _ _ _ => String.le_antisymm) h.sorted hkeys.sorted

/-- Keys that are not known are found exactly where there are any. -/
theorem AreStrange.ne_nil_iff {known keys : List String} (h : AreStrange known m keys) :
    keys ≠ [] ↔ ∃ key ∈ m.keys, key ∉ known := by
  rw [Ne, ← List.perm_nil, h.perm.congr_left, List.perm_nil, List.filter_eq_nil_iff]
  simp

/-- All problems of a table, in the order in which they are told. -/
def problems (m : Mapping) : List ConfigProblem :=
  strange .unknownKeys tableKeys m ++ (setting m "version" text? default.version .version).2 ++
    (setting m "type_mappings" textTable? [] .typeMappings).2 ++
      (setting m "exclude_globs" texts? [] .excludeGlobs).2 ++
    (setting m "validation" table? [] .validation).2 ++
    strange .unknownValidationKeys validationKeys (validationOf m) ++
    (setting (validationOf m) "warn_on_mapped_types" truth? false .warnOnMappedTypes).2

/-- The settings of a table without problems. -/
def settingsOf (m : Mapping) : Config where
  version := (setting m "version" text? default.version .version).1
  typeMappings := (setting m "type_mappings" textTable? [] .typeMappings).1
  excludeGlobs := (setting m "exclude_globs" texts? [] .excludeGlobs).1
  warnOnMappedTypes := (setting (validationOf m) "warn_on_mapped_types" truth? false .warnOnMappedTypes).1

theorem ofMapping_eq (m : Mapping) :
    ofMapping m = if (problems m).isEmpty then .ok (settingsOf m) else .error (.problems (problems m)) := rfl

theorem exists_ofMapping_iff : (∃ c, ofMapping m = .ok c) ↔ problems m = [] := by
  rw [ofMapping_eq, ← List.isEmpty_iff]
  cases (problems m).isEmpty <;> simp

theorem ofMapping_eq_error_iff {e : ConfigShapeError} :
    ofMapping m = .error e ↔ problems m ≠ [] ∧ e = .problems (problems m) := by
  rw [ofMapping_eq, Ne, ← List.isEmpty_iff]
  cases (problems m).isEmpty <;> simp [eq_comm]

section Settings

variable {α : Type} {key : String} {read : Value → Option α} {default : α} {problem p : ConfigProblem}

theorem mem_setting : p ∈ (setting m key read default problem).2 ↔
    p = problem ∧ ∃ v, m.get? key = some v ∧ ¬ ∃ a, read v = some a := by
  unfold setting
  cases m.get? key with
  | none => simp
  | some v => cases hread : read v <;> simp [hread]

theorem mem_strange {problem : List String → ConfigProblem} {known : List String} :
    p ∈ strange problem known m ↔ ∃ keys, AreStrange known m keys ∧ keys ≠ [] ∧ p = problem keys := by
  have hkeys := areStrange_strangeKeys known m
  have hmem : p ∈ strange problem known m ↔ strangeKeys known m ≠ [] ∧ p = problem (strangeKeys known m) := by
    unfold strange
    cases strangeKeys known m <;> simp
  rw [hmem]
  constructor
  · rintro ⟨hne, hp⟩
    exact ⟨_, hkeys, hne, hp⟩
  · rintro ⟨keys, h, hne, hp⟩
    obtain rfl := h.eq_strangeKeys
    exact ⟨hne, hp⟩

/-- A setting tells its problem at most once. -/
theorem rank_setting : ((setting m key read default problem).2.map ConfigProblem.rank).Sublist [problem.rank] := by
  unfold setting
  cases m.get? key with
  | none => simp
  | some v => cases hread : read v <;> simp [hread]

theorem rank_strange {problem : List String → ConfigProblem} {known : List String} {n : Nat}
    (h : ∀ keys, (problem keys).rank = n) : ((strange problem known m).map ConfigProblem.rank).Sublist [n] := by
  unfold strange
  cases strangeKeys known m <;> simp [h]

end Settings

theorem validationOf_cases (m : Mapping) :
    (validationOf m = [] ∧ ∀ v t, m.get? "validation" = some v → v.bare ≠ .map t) ∨
      ∃ v, m.get? "validation" = some v ∧ v.bare = .map (validationOf m) := by
  unfold validationOf setting
  cases m.get? "validation" with
  | none => simp
  | some v =>
    cases ht : table? v with
    | none =>
      have hnone := mt exists_table?_iff.2 (by simp [ht] : ¬ ∃ t, table? v = some t)
      exact .inl ⟨by simp [ht], fun _ t hv hbare => hnone ⟨t, Option.some.inj hv ▸ hbare⟩⟩
    | some t => exact .inr ⟨v, rfl, by simpa [ht] using table?_eq_some_iff.1 ht⟩

/-- What is told of the part for warnings is told of a table that stands there. -/
theorem exists_validation_iff {P : Mapping → Prop} (hempty : ¬ P []) :
    P (validationOf m) ↔ ∃ v t, m.get? "validation" = some v ∧ v.bare = .map t ∧ P t := by
  obtain ⟨hnil, hnone⟩ | ⟨v, hget, hbare⟩ := validationOf_cases m
  · rw [hnil]
    exact ⟨fun h => absurd h hempty, fun ⟨v, t, hget, hbare, _⟩ => absurd hbare (hnone v t hget)⟩
  · constructor
    · exact fun h => ⟨v, _, hget, hbare, h⟩
    · rintro ⟨v', t, hget', hbare', h⟩
      obtain rfl := Option.some.inj (hget.symm.trans hget')
      obtain rfl := Value.map.inj (hbare.symm.trans hbare')
      exact h

/-- A table's problems are its violations. -/
theorem mem_problems {p : ConfigProblem} : p ∈ problems m ↔ Violates m p := by
  have hstrange := exists_validation_iff (m := m)
    (P := fun t => ∃ keys, AreStrange validationKeys t keys ∧ keys ≠ [] ∧ p = .unknownValidationKeys keys)
    fun ⟨keys, h, hne, _⟩ => hne h.perm.eq_nil
  have hwarn := exists_validation_iff (m := m)
    (P := fun t => p = .warnOnMappedTypes ∧ ∃ w, t.get? "warn_on_mapped_types" = some w ∧ ¬ IsTruth w)
    fun ⟨_, _, hnone, _⟩ => nomatch hnone
  simp only [problems, List.mem_append, mem_setting, mem_strange, exists_text?_iff, exists_textTable?_iff,
    exists_texts?_iff, exists_table?_iff, exists_truth?_iff, hstrange, hwarn]
  constructor
  · rintro ((((((⟨keys, h, hne, rfl⟩ | ⟨rfl, v, hget, h⟩) | ⟨rfl, v, hget, h⟩) | ⟨rfl, v, hget, h⟩) |
      ⟨rfl, v, hget, h⟩) |
      ⟨v, t, hget, ht, keys, h, hne, rfl⟩) | ⟨v, t, hget, ht, rfl, w, hw, h⟩)
    · exact .unknownKeys h hne
    · exact .version hget h
    · exact .typeMappings hget h
    · exact .excludeGlobs hget h
    · exact .validation hget (not_exists.1 h)
    · exact .unknownValidationKeys hget ht h hne
    · exact .warnOnMappedTypes hget ht hw h
  · rintro (⟨h, hne⟩ | ⟨hget, h⟩ | ⟨hget, h⟩ | ⟨hget, h⟩ | ⟨hget, h⟩ | ⟨hget, ht, h, hne⟩ | ⟨hget, ht, hw, h⟩)
    · exact .inl <| .inl <| .inl <| .inl <| .inl <| .inl ⟨_, h, hne, rfl⟩
    · exact .inl <| .inl <| .inl <| .inl <| .inl <| .inr ⟨rfl, _, hget, h⟩
    · exact .inl <| .inl <| .inl <| .inl <| .inr ⟨rfl, _, hget, h⟩
    · exact .inl <| .inl <| .inl <| .inr ⟨rfl, _, hget, h⟩
    · exact .inl <| .inl <| .inr ⟨rfl, _, hget, not_exists.2 h⟩
    · exact .inl <| .inr ⟨_, _, hget, ht, _, h, hne, rfl⟩
    · exact .inr ⟨_, _, hget, ht, rfl, _, hw, h⟩

/-- Each problem is told once, each at its place. -/
theorem problems_ordered (m : Mapping) : (problems m).Pairwise fun p q => p.rank < q.rank := by
  have hranks : ((problems m).map ConfigProblem.rank).Sublist ([0] ++ [1] ++ [2] ++ [3] ++ [4] ++ [5] ++ [6]) := by
    simp only [problems, List.map_append]
    refine .append (.append (.append (.append (.append (.append ?_ ?_) ?_) ?_) ?_) ?_) ?_
    · exact rank_strange fun _ => rfl
    · exact rank_setting
    · exact rank_setting
    · exact rank_setting
    · exact rank_setting
    · exact rank_strange fun _ => rfl
    · exact rank_setting
  exact List.pairwise_map.1 (List.Pairwise.sublist hranks (by decide))

theorem hasShape_iff : HasShape m ↔ ∀ p, ¬ Violates m p := by
  constructor
  · rintro h p (⟨hkeys, hne⟩ | ⟨hget, hnot⟩ | ⟨hget, hnot⟩ | ⟨hget, hnot⟩ | ⟨hget, hnot⟩ | ⟨hget, ht, hkeys, hne⟩ |
      ⟨hget, ht, hw, hnot⟩)
    · obtain ⟨key, hkey, hstrange⟩ := hkeys.ne_nil_iff.1 hne
      exact hstrange (h.keys key hkey)
    · exact hnot (h.version _ hget)
    · exact hnot (h.typeMappings _ hget)
    · exact hnot (h.excludeGlobs _ hget)
    · obtain ⟨t, ht, -⟩ := h.validation _ hget
      exact hnot t ht
    · obtain ⟨t', ht', hknown, -⟩ := h.validation _ hget
      obtain rfl := Value.map.inj (ht.symm.trans ht')
      obtain ⟨key, hkey, hstrange⟩ := hkeys.ne_nil_iff.1 hne
      exact hstrange (List.mem_singleton.2 (hknown key hkey))
    · obtain ⟨t', ht', -, htruth⟩ := h.validation _ hget
      obtain rfl := Value.map.inj (ht.symm.trans ht')
      exact hnot (htruth _ hw)
  · intro h
    refine ⟨fun key hkey => ?_, fun v hget => ?_, fun v hget => ?_, fun v hget => ?_, fun v hget => ?_⟩
    · by_contra hstrange
      have hkeys := areStrange_strangeKeys tableKeys m
      exact h _ (.unknownKeys hkeys (hkeys.ne_nil_iff.2 ⟨key, hkey, hstrange⟩))
    · by_contra hnot
      exact h _ (.version hget hnot)
    · by_contra hnot
      exact h _ (.typeMappings hget hnot)
    · by_contra hnot
      exact h _ (.excludeGlobs hget hnot)
    · have htable : ∃ t : Mapping, v.bare = .map t := by
        by_contra hnot
        exact h _ (.validation hget (not_exists.1 hnot))
      obtain ⟨t, ht⟩ := htable
      refine ⟨t, ht, fun key hkey => ?_, fun w hw => ?_⟩
      · by_contra hstrange
        have hkeys := areStrange_strangeKeys validationKeys t
        have hne := hkeys.ne_nil_iff.2 ⟨key, hkey, mt List.mem_singleton.1 hstrange⟩
        exact h _ (.unknownValidationKeys hget ht hkeys hne)
      · by_contra hnot
        exact h _ (.warnOnMappedTypes hget ht hw hnot)

section Messages

theorem isInfix_text {problems : List ConfigProblem} {p : ConfigProblem} (h : p ∈ problems) :
    p.text.toList <:+: (ConfigShapeError.problems problems).text.toList :=
  Text.infix_append _ (Text.infix_intercalate (List.mem_map_of_mem h))

theorem isInfix_key {p : ConfigProblem} {key : String} (h : key ∈ p.keys) : key.toList <:+: p.text.toList := by
  cases p with
  | unknownKeys keys | unknownValidationKeys keys => exact Text.infix_append _ (Text.infix_intercalate h)
  | _ => cases h

end Messages

theorem textTable?_texts (d : Dictionary String) : textTable? (.map (d.map fun (k, t) => (k, .str t))) = some d := by
  induction d with
  | nil => rfl
  | cons e d ih =>
    simp only [textTable?, Value.bare] at ih ⊢
    rw [List.map_cons, List.mapM_cons, ih]
    rfl

/-- Settings are read back from the table that they are written as. -/
theorem ofMapping_toMapping (c : Config) : ofMapping c.toMapping = .ok c := by
  refine ofMapping_eq_ok_iff.2 ⟨by simp [toMapping, Dictionary.keys, tableKeys], rfl, ?_, ?_, ?_⟩
  · exact textTable?_texts c.typeMappings
  · exact texts?_texts c.excludeGlobs
  · exact ⟨[("warn_on_mapped_types", .bool c.warnOnMappedTypes)], rfl, by simp [Dictionary.keys, validationKeys], rfl⟩

theorem ofValue_of_map (h : v.bare = .map m) : ofValue v = ofMapping m := by
  rw [ofValue, h]

theorem ofValue_of_not_map (h : ∀ m, v.bare ≠ .map m) : ofValue v = .error (.noTable v.kind) := by
  rw [ofValue]
  cases hbare : v.bare with
  | map m => exact absurd hbare (h m)
  | _ => rfl

/-- A value is taken for settings exactly when it is a table of their shape. Of a table that is not every part that is
wrong is told once, in a fixed order, with all the keys that are not known; and settings that have been taken are read
back, in the same order, from the table that they are written as. -/
theorem ofValue_tells (v : Value) :
    ((∃ c, ofValue v = .ok c) ↔ ∃ m, v.bare = .map m ∧ HasShape m) ∧
    (∀ e, ofValue v = .error e → (∀ m, v.bare ≠ .map m) ∧ e = .noTable v.kind ∨
      ∃ m problems, v.bare = .map m ∧ e = .problems problems ∧ (∀ p, p ∈ problems ↔ Violates m p) ∧
        (problems.Pairwise fun p q => p.rank < q.rank) ∧
        ∀ p ∈ problems, p.text.toList <:+: e.text.toList ∧ ∀ key ∈ p.keys, key.toList <:+: p.text.toList) ∧
    ∀ c, ofValue v = .ok c → (∃ m, v.bare = .map m ∧ c.IsOf m) ∧ ofValue (.map c.toMapping) = .ok c := by
  by_cases hmap : ∃ m, v.bare = .map m
  · obtain ⟨m, hm⟩ := hmap
    rw [ofValue_of_map hm]
    have htaken : (∃ c, ofMapping m = .ok c) ↔ HasShape m := by
      simp only [exists_ofMapping_iff, hasShape_iff, ← mem_problems, List.eq_nil_iff_forall_not_mem]
    refine ⟨?_, fun e he => .inr ?_, fun c hc => ?_⟩
    · rw [htaken]
      exact ⟨fun h => ⟨m, hm, h⟩, fun ⟨m', hm', h⟩ => Value.map.inj (hm.symm.trans hm') ▸ h⟩
    · obtain ⟨-, rfl⟩ := ofMapping_eq_error_iff.1 he
      exact ⟨m, problems m, hm, rfl, fun p => mem_problems, problems_ordered m,
        fun p hp => ⟨isInfix_text hp, fun key => isInfix_key⟩⟩
    · exact ⟨⟨m, hm, ofMapping_eq_ok_iff.1 hc⟩, ofMapping_toMapping c⟩
  · have hnone := not_exists.1 hmap
    rw [ofValue_of_not_map hnone]
    refine ⟨by simp [hnone], fun e he => .inl ⟨hnone, ?_⟩, fun c hc => nomatch hc⟩
    exact (Except.error.inj he).symm

/-- Four problems at once, two of them inside of a table that stands in the table. -/
theorem ofValue_tells_four :
    let m : Mapping := [("b", .null), ("version", .int 1), ("B", .null),
      ("validation", .map [("on", .bool true), ("warn_on_mapped_types", .str "yes")])]
    let problems := [.unknownKeys ["B", "b"], .version, .unknownValidationKeys ["on"], .warnOnMappedTypes]
    ofValue (.map m) = .error (.problems problems) ∧ (∀ p, p ∈ problems ↔ Violates m p) ∧
      "b".toList <:+: (ConfigShapeError.problems problems).text.toList := by
  intro m problems
  have houter : strangeKeys tableKeys m = ["B", "b"] := (AreStrange.eq_strangeKeys ⟨by decide, by decide⟩).symm
  have hinner : strangeKeys validationKeys (validationOf m) = ["on"] :=
    (AreStrange.eq_strangeKeys ⟨by decide, by decide⟩).symm
  have htold : Config.problems m = problems := by
    rw [Config.problems, strange, strange, houter, hinner]
    rfl
  have he : ofValue (.map m) = .error (.problems problems) := by
    rw [ofValue_of_map rfl, ofMapping_eq, htold]
    rfl
  obtain ⟨hnone, -⟩ | ⟨m', problems', hm, hproblems, hmem, -, htext⟩ := (ofValue_tells (.map m)).2.1 _ he
  · exact absurd rfl (hnone m)
  · obtain rfl := Value.map.inj hm
    obtain rfl := ConfigShapeError.problems.inj hproblems
    obtain ⟨hp, hkey⟩ := htext (.unknownKeys ["B", "b"]) (by decide)
    exact ⟨he, hmem, (hkey "b" (by decide)).trans hp⟩

end Config

end NoteVault
