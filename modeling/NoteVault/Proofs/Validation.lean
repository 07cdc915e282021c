import NoteVault.Proofs.Dictionary
import NoteVault.Validation

/-!
When front matter has no error: it declares a type, and if that is registered, each field takes what stands in it
and each key has a field.
-/
namespace NoteVault

/-- A key has a text where it holds one with something in it. -/
theorem Mapping.text?_eq_some_iff {m : Mapping} {key text : String} :
    m.text? key = some text ↔ m.get? key = some (.str text) ∧ text ≠ "" := by
  unfold Mapping.text?
  constructor
  · intro h
    split at h
    next s hs =>
      split at h
      · cases h
      next hne =>
        cases h
        exact ⟨hs, hne⟩
    next => cases h
  · rintro ⟨hkey, hne⟩
    simp [hkey, hne]

theorem Mapping.declaredType?_eq_some_iff {m : Mapping} {type : String} :
    m.declaredType? = some type ↔ m.get? "type" = some (.str type) ∧ type ≠ "" :=
  text?_eq_some_iff

/-- A summary is stale where the last edit has a greater text. -/
theorem Mapping.staleSummary?_eq_some_iff {m : Mapping} {i : Issue} : m.staleSummary? = some i ↔
    ∃ updated summarised, m.text? "updated" = some updated ∧ m.text? "summarisedAt" = some summarised ∧
      summarised < updated ∧ i = .summaryStale summarised updated := by
  simp [staleSummary?, Option.bind_eq_some_iff, eq_comm (a := i)]

theorem Mapping.exists_of_staleSummary? {m : Mapping} {i : Issue} (h : m.staleSummary? = some i) :
    ∃ summarised updated, i = Issue.summaryStale summarised updated := by
  obtain ⟨updated, summarised, -, -, -, rfl⟩ := staleSummary?_eq_some_iff.1 h
  exact ⟨summarised, updated, rfl⟩

/-- No array is a text. -/
theorem Field.check_text_of_isArray {f : Field} (h : f.isArray = true) (s : String) : f.check (.str s) ≠ none := by
  unfold Field.check
  unfold Field.isArray at h
  cases htype : f.type with
  | array items => cases items <;> simp [FieldType.check, FieldType.checkArray, Value.bare]
  | _ => simp [htype, FieldType.kind] at h

/-- A value is told of exactly when it does not fit. -/
theorem Field.valueIssue?_eq_none_iff {f : Field} {v : Value} : f.valueIssue? v = none ↔ f.check v = none := by
  unfold Field.valueIssue?
  split
  next s htags =>
    have harray : f.isArray = true := (Bool.and_eq_true _ _ ▸ htags : _ ∧ _).2
    simpa using Field.check_text_of_isArray harray s
  next => simp

theorem Field.error_of_issue? {f : Field} {m : Mapping} {i : Issue} (h : f.issue? m = some i) :
    i.isError = true ∧ (i.code = .schemaInvalid ∨ i.code = .tagsNotArray) := by
  unfold Field.issue? at h
  split at h
  · split at h
    · cases h
      exact ⟨rfl, .inl rfl⟩
    · cases h
  · unfold Field.valueIssue? at h
    split at h
    · cases h
      exact ⟨rfl, .inr rfl⟩
    · obtain ⟨_, -, rfl⟩ := Option.map_eq_some_iff.1 h
      exact ⟨rfl, .inl rfl⟩

namespace Schema

variable (s : Schema)

theorem eq_of_name_eq {f g : Field} (hf : f ∈ s.fields) (hg : g ∈ s.fields) (h : f.name = g.name) : f = g :=
  List.inj_on_of_nodup_map s.names_nodup hf hg h

theorem has_iff {name : String} : s.has name = true ↔ name ∈ s.fieldNames := by
  simp [has, fieldNames]

theorem type_mem_fieldNames : "type" ∈ s.fieldNames := by
  obtain ⟨f, hf, hname, -⟩ := s.type_literal
  exact List.mem_map.2 ⟨f, hf, hname⟩

/-- The field of the type takes the name of the type and nothing else. -/
theorem type_eq_literal {f : Field} (hf : f ∈ s.fields) (hname : f.name = "type") :
    f.type = .literal (.str s.typeName) := by
  obtain ⟨g, hg, hgname, hliteral⟩ := s.type_literal
  rw [s.eq_of_name_eq hf hg (hname.trans hgname.symm), hliteral]

theorem isError_of_mem_issues {m : Mapping} {i : Issue} (h : i ∈ s.issues m) : i.isError = true := by
  obtain hfield | hkeys := List.mem_append.1 h
  · obtain ⟨f, -, hi⟩ := List.mem_filterMap.1 hfield
    exact (Field.error_of_issue? hi).1
  · split at hkeys
    · cases hkeys
    · rw [List.mem_singleton.1 hkeys]
      rfl

theorem issues_eq_nil_iff {m : Mapping} :
    s.issues m = [] ↔ (∀ f ∈ s.fields, f.issue? m = none) ∧ ∀ key, m.get? key ≠ none → key ∈ s.fieldNames := by
  have hkeys : s.unknownKeys m = [] ↔ ∀ key, m.get? key ≠ none → key ∈ s.fieldNames := by
    simp only [unknownKeys, List.filter_eq_nil_iff, Bool.not_eq_true', Bool.not_eq_false, ne_eq,
      Dictionary.get?_eq_none_iff, not_not, has_iff]
  rw [issues, List.append_eq_nil_iff, List.filterMap_eq_nil_iff, ← hkeys]
  refine and_congr_right fun _ => ?_
  cases s.unknownKeys m <;> simp

/-- The errors of front matter are the issues of its type. -/
theorem filter_judge (m : Mapping) : (s.judge m).filter Issue.isError = s.issues m := by
  unfold judge
  split
  next hnone =>
    rw [hnone, List.filter_eq_nil_iff]
    intro i hi
    obtain ⟨_, _, rfl⟩ := Mapping.exists_of_staleSummary? (Option.mem_toList.1 hi)
    exact Bool.false_ne_true
  next => exact List.filter_eq_self.2 fun i hi => s.isError_of_mem_issues hi

/-- The codes of what a type tells of front matter. -/
theorem code_of_mem_judge {m : Mapping} {i : Issue} (h : i ∈ s.judge m) :
    i.code ∈ [IssueCode.schemaInvalid, .tagsNotArray, .unknownKey, .staleSummary] := by
  unfold judge at h
  split at h
  · obtain ⟨_, _, rfl⟩ := Mapping.exists_of_staleSummary? (Option.mem_toList.1 h)
    simp [Issue.summaryStale, Issue.warning]
  · obtain hfield | hkeys := List.mem_append.1 h
    · obtain ⟨f, -, hissue⟩ := List.mem_filterMap.1 hfield
      obtain ⟨-, hcode | hcode⟩ := Field.error_of_issue? hissue <;> simp [hcode]
    · split at hkeys
      · cases hkeys
      · rw [List.mem_singleton.1 hkeys]
        simp [Issue.keysUnknown, Issue.error]

theorem judge_eq_nil_iff {m : Mapping} : (∀ i ∈ s.judge m, i.isError = false) ↔ s.issues m = [] := by
  rw [← s.filter_judge, List.filter_eq_nil_iff]
  simp only [Bool.not_eq_true]

end Schema

namespace Registry

variable {r : Registry} {config : Config} {m : Mapping}

theorem entry?_type {type : String} {e : SchemaEntry} (h : r.entry? type = some e) : e.type = type :=
  beq_iff_eq.1 (List.find?_some (p := fun e : SchemaEntry => e.type == type) h)

/-- What is told of front matter as one of a type. -/
def verdict (r : Registry) (type : String) (m : Mapping) : List Issue :=
  match r.schema? type with
  | none => [.typeUnknown type]
  | some s => s.judge (m.put "type" (.str type))

/-- The warning of a type that stands for another one, if warnings are given. -/
def mappedWarnings (config : Config) (declared : String) : List Issue :=
  if config.resolve declared ≠ declared && config.warnOnMappedTypes then
    [.typeMapped declared (config.resolve declared)] else []

theorem eq_of_mem_mappedWarnings {declared : String} {i : Issue} (h : i ∈ mappedWarnings config declared) :
    i = .typeMapped declared (config.resolve declared) := by
  unfold mappedWarnings at h
  split at h
  · exact List.mem_singleton.1 h
  · cases h

/-- A type that stands for another one is told of first, and is then judged as the other one. -/
theorem validate_of_declared {declared : String} (h : m.declaredType? = some declared) :
    r.validate config m = mappedWarnings config declared ++ r.verdict (config.resolve declared) m := by
  rw [validate, h]
  rfl

/-- Some of the issues, not the warning of a type that stands for another one, are found in the verdict. -/
theorem filter_validate {p : Issue → Bool} (hp : ∀ declared canonical, p (.typeMapped declared canonical) = false)
    {declared : String} (h : m.declaredType? = some declared) :
    (r.validate config m).filter p = (r.verdict (config.resolve declared) m).filter p := by
  have hmapped : (mappedWarnings config declared).filter p = [] := by
    rw [List.filter_eq_nil_iff]
    intro i hi
    rw [eq_of_mem_mappedWarnings hi, hp]
    exact Bool.false_ne_true
  rw [validate_of_declared h, List.filter_append, hmapped, List.nil_append]

/-- The front matter has no error. -/
def Accepts (r : Registry) (config : Config) (m : Mapping) : Prop := ∀ i ∈ r.validate config m, i.isError = false

instance : Decidable (r.Accepts config m) := inferInstanceAs (Decidable (∀ i ∈ r.validate config m, i.isError = false))

/-- A type that is not registered has no errors, and a registered one those of its schema. -/
theorem verdict_accepts_iff {type : String} :
    (∀ i ∈ r.verdict type m, i.isError = false) ↔
      ∀ e, r.entry? type = some e → e.schema.issues (m.put "type" (.str e.type)) = [] := by
  rw [verdict, schema?]
  cases hentry : r.entry? type with
  | none => simp [Issue.typeUnknown, Issue.isError, Issue.warning]
  | some e =>
    rw [Option.map_some, e.schema.judge_eq_nil_iff, ← entry?_type hentry]
    simp

theorem accepts_iff : r.Accepts config m ↔ m.declaredType? ≠ none ∧
    ∀ e, r.entryOf? config m = some e → e.schema.issues (m.put "type" (.str e.type)) = [] := by
  unfold Accepts entryOf?
  cases hdeclared : m.declaredType? with
  | none =>
    refine iff_of_false (fun h => ?_) (by simp)
    rw [validate, hdeclared] at h
    exact absurd (h _ List.mem_cons_self) (by decide)
  | some declared =>
    have hmapped : ∀ i ∈ mappedWarnings config declared, i.isError = false := by
      intro i hi
      rw [eq_of_mem_mappedWarnings hi]
      rfl
    rw [validate_of_declared hdeclared, List.forall_mem_append, and_iff_right hmapped, verdict_accepts_iff,
      Option.bind_some, and_iff_right (Option.some_ne_none declared)]

end Registry

end NoteVault
