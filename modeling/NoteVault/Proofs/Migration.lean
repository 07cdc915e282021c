import NoteVault.Proofs.Validation
import NoteVault.Repair
import NoteVault.Schema.Standard

/-!
Front matter that is given the type which its own type stands for. It is judged as before and without the warning,
unless that type stands for yet another one: types are looked up once.
-/
namespace NoteVault

namespace Registry

variable (r : Registry) (config : Config)

/-- The type that stands in front matter has no part in the verdict of another type. -/
theorem verdict_put (type declared : String) (m : Mapping) :
    r.verdict type (m.put "type" (.str declared)) = r.verdict type m := by
  unfold verdict
  rw [Dictionary.put_put]

/-- The verdict of a type is not that the type is mapped. -/
theorem filter_verdict (type : String) (m : Mapping) :
    (r.verdict type m).filter (·.code ≠ .mappedType) = r.verdict type m := by
  rw [List.filter_eq_self]
  intro i hi
  apply decide_eq_true
  intro hmapped
  unfold verdict at hi
  cases hschema : r.schema? type with
  | none =>
    rw [hschema] at hi
    rw [List.mem_singleton.1 hi] at hmapped
    cases hmapped
  | some s =>
    rw [hschema] at hi
    have hcode := s.code_of_mem_judge hi
    rw [hmapped] at hcode
    exact absurd hcode (by decide)

variable {r config} {m : Mapping} {declared : String}

/-- Without the warning of a mapped type, the verdict of the type that is meant is left. -/
theorem filter_not_mapped (h : m.declaredType? = some declared) :
    (r.validate config m).filter (·.code ≠ .mappedType) = r.verdict (config.resolve declared) m := by
  rw [filter_validate (fun _ _ => by simp [Issue.typeMapped, Issue.warning]) h, filter_verdict]

/-- Front matter of a new type is judged as what the new type stands for. -/
theorem validate_put {canonical : String} (hcanonical : canonical ≠ "") :
    r.validate config (m.put "type" (.str canonical)) =
      mappedWarnings config canonical ++ r.verdict (config.resolve canonical) m := by
  have hdeclared : Mapping.declaredType? (m.put "type" (.str canonical)) = some canonical :=
    Mapping.declaredType?_eq_some_iff.2 ⟨by rw [Dictionary.get?_put, if_pos rfl], hcanonical⟩
  rw [validate_of_declared hdeclared, verdict_put]

/-- A note of a type is written again with the new type in the place of the old one. -/
theorem migrate_of_data {content : String} {note : Note} (hparse : Note.parse content = .ok note)
    (hdata : note.data = some m) (htype : m.get? "type" = some (.str declared)) (target : String) :
    Note.migrate r declared target content =
      Note.withFrontMatter content note.body (m.put "type" (.str target)) (Note.referencesOf (r.entry? target)) := by
  simp [Note.migrate, hparse, hdata, htype, Except.mapError, bind, Except.bind]

/-- Front matter that is given the type which its own stands for has all its issues but the warning of a mapped type,
if that type stands for itself. If it stands for another one, this is so only where no warnings are given and the
other type has the same verdict. -/
theorem validate_migrated (htype : m.get? "type" = some (.str declared)) (hdeclared : declared ≠ "")
    (hcanonical : config.resolve declared ≠ "") :
    let canonical := config.resolve declared
    let migrated := m.put "type" (.str canonical)
    let others := (r.validate config m).filter (·.code ≠ .mappedType)
    (∀ content note, Note.parse content = .ok note → note.data = some m → Note.migrate r declared canonical content =
      Note.withFrontMatter content note.body migrated (Note.referencesOf (r.entry? canonical))) ∧
    (config.resolve canonical = canonical → r.validate config migrated = others) ∧
    (config.resolve canonical ≠ canonical → (r.validate config migrated = others ↔
      config.warnOnMappedTypes = false ∧ r.verdict (config.resolve canonical) m = r.verdict canonical m)) := by
  intro canonical migrated others
  have hothers : others = r.verdict canonical m :=
    filter_not_mapped (Mapping.declaredType?_eq_some_iff.2 ⟨htype, hdeclared⟩)
  have hmigrated : r.validate config migrated =
      mappedWarnings config canonical ++ r.verdict (config.resolve canonical) m := validate_put hcanonical
  rw [hothers, hmigrated, mappedWarnings]
  refine ⟨fun content note hparse hdata => migrate_of_data hparse hdata htype canonical, fun hself => ?_, fun hother => ?_⟩
  · simp [hself]
  · cases hwarn : config.warnOnMappedTypes with
    | false => simp
    | true =>
      refine iff_of_false (fun hsame => ?_) (by simp)
      -- the verdict of a type never begins with the warning
      have hmem : Issue.typeMapped canonical (config.resolve canonical) ∈ r.verdict canonical m := by
        rw [← hsame]
        simp [hother]
      rw [← filter_verdict] at hmem
      exact absurd (List.mem_filter.1 hmem).2 (by simp [Issue.typeMapped, Issue.warning])

/-- A mapped type whose front matter has other issues too. -/
theorem validate_migrated_job :
    let config : Config := ⟨"1.0", [("job", "task")], [], true⟩
    let m : Mapping := [("id", .str "i"), ("type", .str "job"), ("title", .str "t"), ("status", .str "todo"),
      ("tags", .str "a")]
    m.get? "type" = some (.str "job") ∧ config.resolve "job" = "task" ∧ config.resolve "task" = "task" ∧
      (standard.validate config m).map (·.code) = [.mappedType, .tagsNotArray] ∧
      standard.validate config (m.put "type" (.str "task")) =
        (standard.validate config m).filter (·.code ≠ .mappedType) := by
  intro config m
  have hcodes : (standard.validate config m).map (·.code) = [.mappedType, .tagsNotArray] := by decide +kernel
  obtain ⟨-, hself, -⟩ := @validate_migrated standard config m "job" rfl (by decide) (by decide)
  exact ⟨rfl, rfl, rfl, hcodes, hself rfl⟩

/-- A type that stands for a type which stands for a third one: front matter of the second type is warned of again. -/
theorem validate_migrated_twice_mapped :
    let config : Config := ⟨"1.0", [("memo", "idea"), ("idea", "plan")], [], true⟩
    let m : Mapping := [("type", .str "memo"), ("id", .str "i"), ("title", .str "t"), ("status", .str "draft")]
    m.get? "type" = some (.str "memo") ∧ config.resolve "memo" = "idea" ∧
      standard.validate config (m.put "type" (.str "idea")) = [.typeMapped "idea" "plan"] ∧
      standard.validate config (m.put "type" (.str "idea")) ≠
        (standard.validate config m).filter (·.code ≠ .mappedType) := by
  decide +kernel

end Registry

end NoteVault
