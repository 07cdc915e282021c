import NoteVault.Proofs.Validation

/-!
What is told of front matter, and why. Each issue has its reason in the front matter, and where there is a reason there
is an issue; results on the issues of repaired or new front matter are read off the reasons.
-/
namespace NoteVault

/-- A text that begins otherwise. -/
theorem ne_required_of_head {s : String} (h : s.toList.head? ≠ some 'R') : s ≠ "Required" := by
  intro hs
  rw [hs] at h
  exact h (by simp)

/-- The wording of a value that does not fit is never that of a field that is missing. -/
theorem FieldProblem.text_ne_required (p : FieldProblem) : p.text ≠ "Required" := by
  apply ne_required_of_head
  cases p <;> unfold FieldProblem.text <;> simp

theorem Field.required_of_issue? {f : Field} {m : Mapping} {i : Issue} (h : f.issue? m = some i)
    (hmessage : i.message = "Required") : f.required = true ∧ m.get? f.name = none := by
  unfold issue? at h
  split at h
  next hnone =>
    split at h
    next hrequired => exact ⟨hrequired, hnone⟩
    next => cases h
  next v hsome =>
    exfalso
    unfold valueIssue? at h
    split at h
    · cases h
      refine ne_required_of_head ?_ hmessage
      simp [Issue.tagsText, Issue.error]
    · obtain ⟨p, -, rfl⟩ := Option.map_eq_some_iff.1 h
      exact p.text_ne_required hmessage

namespace Schema

variable (s : Schema) (m : Mapping)

/-- The type itself is no unknown key, whatever it is. -/
theorem unknownKeys_put_type (v : Value) : s.unknownKeys (m.put "type" v) = s.unknownKeys m := by
  have htype : s.has "type" = true := s.has_iff.2 s.type_mem_fieldNames
  unfold unknownKeys
  rw [Dictionary.keys_put]
  split
  · rfl
  · simp [htype]

theorem mem_unknownKeys {key : String} : key ∈ s.unknownKeys m ↔ key ∈ m.keys ∧ key ∉ s.fieldNames := by
  rw [unknownKeys, List.mem_filter, Bool.not_eq_true', ← Bool.not_eq_true, s.has_iff]

theorem mem_issues {i : Issue} : i ∈ s.issues m ↔
    (∃ f ∈ s.fields, f.issue? m = some i) ∨ s.unknownKeys m ≠ [] ∧ i = .keysUnknown (s.unknownKeys m) := by
  rw [issues, List.mem_append, List.mem_filterMap]
  refine or_congr_right ?_
  cases s.unknownKeys m with
  | nil => simp
  | cons key keys => simp

theorem mem_judge {i : Issue} : i ∈ s.judge m ↔ i ∈ s.issues m ∨ s.issues m = [] ∧ m.staleSummary? = some i := by
  unfold judge
  cases s.issues m with
  | nil => simp
  | cons j rest => simp

/-- The keys that the type does not know are told of once, all of them together. -/
theorem filter_unknownKey_issues : (s.issues m).filter (·.code = .unknownKey) =
    if s.unknownKeys m = [] then [] else [.keysUnknown (s.unknownKeys m)] := by
  have hfields : (s.fields.filterMap (·.issue? m)).filter (·.code = .unknownKey) = [] := by
    rw [List.filter_eq_nil_iff]
    intro i hi
    obtain ⟨f, -, hissue⟩ := List.mem_filterMap.1 hi
    obtain ⟨-, hcode | hcode⟩ := Field.error_of_issue? hissue <;> simp [hcode]
  rw [issues, List.filter_append, hfields, List.nil_append]
  cases s.unknownKeys m with
  | nil => rfl
  | cons key keys => rfl

theorem filter_unknownKey_judge : (s.judge m).filter (·.code = .unknownKey) =
    if s.unknownKeys m = [] then [] else [.keysUnknown (s.unknownKeys m)] := by
  rw [← s.filter_unknownKey_issues]
  unfold judge
  split
  next hnone =>
    rw [hnone, List.filter_nil, List.filter_eq_nil_iff]
    intro i hi
    obtain ⟨_, _, rfl⟩ := Mapping.exists_of_staleSummary? (Option.mem_toList.1 hi)
    simp [Issue.summaryStale, Issue.warning]
  next => rfl

end Schema

namespace Registry

/-- What is told of front matter, for each reason. -/
inductive Tells (r : Registry) (config : Config) (m : Mapping) : Issue → Prop
  | noType (h : m.declaredType? = none) : Tells r config m .noType
  | mapped {declared : String} (h : m.declaredType? = some declared) (hother : config.resolve declared ≠ declared)
    (hwarn : config.warnOnMappedTypes = true) : Tells r config m (.typeMapped declared (config.resolve declared))
  | unknown {declared : String} (h : m.declaredType? = some declared)
    (hnone : r.entry? (config.resolve declared) = none) :
    Tells r config m (.typeUnknown (config.resolve declared))
  | field {e : SchemaEntry} {f : Field} {i : Issue} (he : r.entryOf? config m = some e) (hf : f ∈ e.schema.fields)
    (hi : f.issue? (m.put "type" (.str e.type)) = some i) : Tells r config m i
  | keys {e : SchemaEntry} (he : r.entryOf? config m = some e) (hkeys : e.schema.unknownKeys m ≠ []) :
    Tells r config m (.keysUnknown (e.schema.unknownKeys m))
  | stale {e : SchemaEntry} {i : Issue} (he : r.entryOf? config m = some e)
    (hnone : e.schema.issues (m.put "type" (.str e.type)) = [])
    (hi : Mapping.staleSummary? (m.put "type" (.str e.type)) = some i) : Tells r config m i

variable {r : Registry} {config : Config} {m : Mapping} {e : SchemaEntry}

/-- The code of an issue gives its reason. -/
theorem Tells.reason {i : Issue} (h : r.Tells config m i) :
    match i.code with
    | .missingType => m.declaredType? = none
    | .unknownType => ∃ declared, m.declaredType? = some declared ∧ r.entry? (config.resolve declared) = none
    | .schemaInvalid | .tagsNotArray =>
      ∃ e, r.entryOf? config m = some e ∧ ∃ f ∈ e.schema.fields, f.issue? (m.put "type" (.str e.type)) = some i
    | .unknownKey => ∃ e, r.entryOf? config m = some e ∧ i = .keysUnknown (e.schema.unknownKeys m)
    | _ => True := by
  cases h with
  | noType h => exact h
  | mapped => trivial
  | unknown h hnone => exact ⟨_, h, hnone⟩
  | field he hf hi =>
    obtain ⟨-, hcode | hcode⟩ := Field.error_of_issue? hi <;> rw [hcode] <;> exact ⟨_, he, _, hf, hi⟩
  | keys he hkeys => exact ⟨_, he, rfl⟩
  | stale he hnone hi =>
    obtain ⟨_, _, rfl⟩ := Mapping.exists_of_staleSummary? hi
    trivial

/-- Only a field that has to be there and is missing is told of as required. -/
theorem Tells.required {i : Issue} (h : r.Tells config m i) (hmessage : i.message = "Required") :
    ∃ e, r.entryOf? config m = some e ∧ ∃ f ∈ e.schema.fields, f.required = true ∧ m.get? f.name = none := by
  cases h with
  | field he hf hi =>
    obtain ⟨hrequired, hnone⟩ := Field.required_of_issue? hi hmessage
    rw [Dictionary.get?_put] at hnone
    split at hnone
    · cases hnone
    · exact ⟨_, he, _, hf, hrequired, hnone⟩
  | stale he hnone hi =>
    obtain ⟨_, _, rfl⟩ := Mapping.exists_of_staleSummary? hi
    exact absurd hmessage (ne_required_of_head (by simp [Issue.summaryStale, Issue.warning]))
  | noType => exact absurd hmessage (by decide)
  | mapped => exact absurd hmessage (ne_required_of_head (by simp [Issue.typeMapped, Issue.warning]))
  | unknown => exact absurd hmessage (ne_required_of_head (by simp [Issue.typeUnknown, Issue.warning]))
  | keys => exact absurd hmessage (ne_required_of_head (by simp [Issue.keysUnknown, Issue.error]))

/-- Front matter with an entry declares the type that stands for the type of the entry. -/
theorem entryOf?_eq_some_iff : r.entryOf? config m = some e ↔
    ∃ declared, m.declaredType? = some declared ∧ r.entry? (config.resolve declared) = some e := by
  rw [entryOf?, Option.bind_eq_some_iff]

theorem type_mem_keys (he : r.entryOf? config m = some e) : "type" ∈ m.keys := by
  obtain ⟨declared, hdeclared, -⟩ := entryOf?_eq_some_iff.1 he
  exact Dictionary.mem_keys_iff.2 ⟨_, (Mapping.declaredType?_eq_some_iff.1 hdeclared).1⟩

theorem validate_of_entry {declared : String} (h : m.declaredType? = some declared)
    (he : r.entry? (config.resolve declared) = some e) :
    r.validate config m = mappedWarnings config declared ++ e.schema.judge (m.put "type" (.str e.type)) := by
  rw [validate_of_declared h, verdict, schema?, he, entry?_type he]
  rfl

theorem mem_mappedWarnings {declared : String} {i : Issue} : i ∈ mappedWarnings config declared ↔
    config.resolve declared ≠ declared ∧ config.warnOnMappedTypes = true ∧
      i = .typeMapped declared (config.resolve declared) := by
  by_cases hother : config.resolve declared = declared
  · simp [mappedWarnings, hother]
  · cases hwarn : config.warnOnMappedTypes <;> simp [mappedWarnings, hother, hwarn]

theorem tells_of_mem_judge (he : r.entryOf? config m = some e) {i : Issue}
    (hi : i ∈ e.schema.judge (m.put "type" (.str e.type))) : r.Tells config m i := by
  obtain hissue | ⟨hnone, hstale⟩ := (e.schema.mem_judge _).1 hi
  · obtain ⟨f, hf, hissue⟩ | ⟨hkeys, rfl⟩ := (e.schema.mem_issues _).1 hissue
    · exact .field he hf hissue
    · rw [Schema.unknownKeys_put_type] at hkeys ⊢
      exact .keys he hkeys
  · exact .stale he hnone hstale

theorem tells_of_mem_validate {i : Issue} (hi : i ∈ r.validate config m) : r.Tells config m i := by
  cases hdeclared : m.declaredType? with
  | none =>
    rw [validate, hdeclared] at hi
    rw [List.mem_singleton.1 hi]
    exact .noType hdeclared
  | some declared =>
    rw [validate_of_declared hdeclared] at hi
    obtain hmapped | hverdict := List.mem_append.1 hi
    · obtain ⟨hother, hwarn, rfl⟩ := mem_mappedWarnings.1 hmapped
      exact .mapped hdeclared hother hwarn
    · cases he : r.entry? (config.resolve declared) with
      | none =>
        rw [verdict, schema?, he] at hverdict
        rw [List.mem_singleton.1 hverdict]
        exact .unknown hdeclared he
      | some e =>
        rw [verdict, schema?, he, ← entry?_type he] at hverdict
        exact tells_of_mem_judge (entryOf?_eq_some_iff.2 ⟨declared, hdeclared, he⟩) hverdict

theorem mem_validate_of_mem_judge (he : r.entryOf? config m = some e) {i : Issue}
    (hi : i ∈ e.schema.judge (m.put "type" (.str e.type))) : i ∈ r.validate config m := by
  obtain ⟨declared, hdeclared, hentry⟩ := entryOf?_eq_some_iff.1 he
  rw [validate_of_entry hdeclared hentry]
  exact List.mem_append_right _ hi

/-- An issue is told exactly where it has a reason. -/
theorem mem_validate_iff {i : Issue} : i ∈ r.validate config m ↔ r.Tells config m i := by
  refine ⟨tells_of_mem_validate, fun h => ?_⟩
  cases h with
  | noType h => simp [validate, h]
  | mapped h hother hwarn =>
    rw [validate_of_declared h]
    exact List.mem_append_left _ (mem_mappedWarnings.2 ⟨hother, hwarn, rfl⟩)
  | unknown h hnone =>
    rw [validate_of_declared h, verdict, schema?, hnone]
    exact List.mem_append_right _ List.mem_cons_self
  | field he hf hi =>
    refine mem_validate_of_mem_judge he ((Schema.mem_judge _ _).2 (.inl ?_))
    exact (Schema.mem_issues _ _).2 (.inl ⟨_, hf, hi⟩)
  | keys he hkeys =>
    refine mem_validate_of_mem_judge he ((Schema.mem_judge _ _).2 (.inl ?_))
    rw [Schema.mem_issues, Schema.unknownKeys_put_type]
    exact .inr ⟨hkeys, rfl⟩
  | stale he hnone hi => exact mem_validate_of_mem_judge he ((Schema.mem_judge _ _).2 (.inr ⟨hnone, hi⟩))

/-- Front matter of a registered type is told once of the keys that the type does not know. -/
theorem filter_unknownKey_validate (he : r.entryOf? config m = some e) :
    (r.validate config m).filter (·.code = .unknownKey) =
      if e.schema.unknownKeys m = [] then [] else [.keysUnknown (e.schema.unknownKeys m)] := by
  obtain ⟨declared, hdeclared, hentry⟩ := entryOf?_eq_some_iff.1 he
  rw [filter_validate (fun _ _ => by simp [Issue.typeMapped, Issue.warning]) hdeclared, verdict, schema?, hentry]
  exact (e.schema.filter_unknownKey_judge _).trans (by rw [Schema.unknownKeys_put_type])

end Registry

end NoteVault
