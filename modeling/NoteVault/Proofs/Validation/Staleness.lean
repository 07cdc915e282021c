import NoteVault.Proofs.Calendar.Order
import NoteVault.Proofs.Schema.Conformance
import NoteVault.Proofs.Validation.Reasons
import NoteVault.Proofs.Value.Links

/-!
Stale summaries. Where the type takes days for both dates, the texts that validation compares are days of the calendar,
and a summary is told of as stale exactly when it was written on an earlier day than the last edit.
-/
namespace NoteVault

/-- The texts of days are not empty. -/
theorem Date.text_ne_empty (d : Date) : d.text ≠ "" := by
  intro hempty
  have hread := d.ofText?_text
  rw [hempty] at hread
  cases hread

/-- A day or a point in time becomes the text of a day. -/
theorem Value.exists_of_isDay {v : Value} (h : v.isDay = true) : ∃ d : Date, v.datesAsText = .str d.text := by
  unfold isDay at h
  split at h
  · exact ⟨_, rfl⟩
  · exact ⟨_, rfl⟩
  · exact ⟨_, rfl⟩
  · exact ⟨_, rfl⟩
  · cases h

theorem Mapping.text?_put_of_ne {m : Mapping} {key other : String} (h : key ≠ other) (v : Value) :
    Mapping.text? (m.put other v) key = m.text? key := by
  rw [text?, text?, Dictionary.get?_put, if_neg h]

/-- The field of a name takes days and nothing else. -/
def Schema.TakesDays (s : Schema) (name : String) : Prop := ∃ f ∈ s.fields, f.name = name ∧ f.type = .date

instance {s : Schema} {name : String} : Decidable (s.TakesDays name) :=
  inferInstanceAs (Decidable (∃ f ∈ s.fields, f.name = name ∧ f.type = .date))

/-- Front matter without an issue has a day where only days are taken. -/
theorem Schema.TakesDays.exists_day {s : Schema} {m : Mapping} {name : String} (h : s.TakesDays name)
    (hissues : s.issues m = []) {v : Value} (hv : m.get? name = some v) : ∃ d : Date, v.bare = .str d.text := by
  obtain ⟨f, hf, rfl, htype⟩ := h
  have htakes := ((s.issues_eq_nil_iff_conforms.1 hissues).fits f hf).takes v hv
  rw [htype] at htakes
  cases htakes with
  | date d hday => exact ⟨d, hday⟩

/-- The type itself is no day, so a field that takes days is another one. -/
theorem Schema.TakesDays.ne_type {s : Schema} {name : String} (h : s.TakesDays name) : name ≠ "type" := by
  obtain ⟨f, hf, rfl, htype⟩ := h
  intro hname
  rw [s.type_eq_literal hf hname] at htype
  cases htype

namespace Registry

variable {r : Registry} {config : Config} {m : Mapping} {e : SchemaEntry}

/-- No other issue of front matter has the code of a stale summary. -/
theorem exists_staleSummary_iff (he : r.entryOf? config m = some e)
    (hissues : e.schema.issues (m.put "type" (.str e.type)) = []) :
    (∃ i ∈ r.validate config m, i.code = .staleSummary) ↔ ∃ i, m.staleSummary? = some i := by
  have htype : Mapping.staleSummary? (m.put "type" (.str e.type)) = m.staleSummary? := by
    rw [Mapping.staleSummary?, Mapping.text?_put_of_ne (by decide), Mapping.text?_put_of_ne (by decide),
      Mapping.staleSummary?]
  constructor
  · rintro ⟨i, hi, hcode⟩
    cases mem_validate_iff.1 hi with
    | noType h => cases hcode
    | mapped => cases hcode
    | unknown => cases hcode
    | keys => cases hcode
    | field _ _ hfield =>
      obtain ⟨-, hcode' | hcode'⟩ := Field.error_of_issue? hfield
      all_goals
        rw [hcode'] at hcode
        cases hcode
    | stale he' _ hstale =>
      obtain rfl := Option.some.inj (he.symm.trans he')
      exact ⟨i, htype ▸ hstale⟩
  · rintro ⟨i, hi⟩
    obtain ⟨_, _, rfl⟩ := Mapping.exists_of_staleSummary? hi
    exact ⟨_, mem_validate_iff.2 (.stale he hissues (htype ▸ hi)), rfl⟩

/-- The texts of two days are compared as the days. -/
theorem exists_staleSummary?_iff (hdays : ∀ key ∈ ["updated", "summarisedAt"], ∀ v, m.get? key = some v →
      ∃ d : Date, v.bare = .str d.text) :
    (∃ i, m.staleSummary? = some i) ↔ ∃ updated summarised : Date, m.get? "updated" = some (.str updated.text) ∧
      m.get? "summarisedAt" = some (.str summarised.text) ∧ summarised.ordinal < updated.ordinal := by
  have hday : ∀ {key text}, key ∈ ["updated", "summarisedAt"] → m.text? key = some text →
      ∃ d : Date, m.get? key = some (.str d.text) ∧ text = d.text := fun hkey htext => by
    obtain ⟨hvalue, -⟩ := Mapping.text?_eq_some_iff.1 htext
    obtain ⟨d, hd⟩ := hdays _ hkey _ hvalue
    obtain rfl := Value.str.inj hd
    exact ⟨d, hvalue, rfl⟩
  have htext : ∀ {key} {d : Date}, m.get? key = some (.str d.text) → m.text? key = some d.text :=
    fun h => Mapping.text?_eq_some_iff.2 ⟨h, Date.text_ne_empty _⟩
  constructor
  · rintro ⟨i, hi⟩
    obtain ⟨updated, summarised, hupdated, hsummarised, hlt, -⟩ := Mapping.staleSummary?_eq_some_iff.1 hi
    obtain ⟨u, hu, rfl⟩ := hday (by simp) hupdated
    obtain ⟨s, hs, rfl⟩ := hday (by simp) hsummarised
    exact ⟨u, s, hu, hs, Date.text_lt_iff_ordinal.1 hlt⟩
  · rintro ⟨u, s, hu, hs, hlt⟩
    exact ⟨_, Mapping.staleSummary?_eq_some_iff.2
      ⟨u.text, s.text, htext hu, htext hs, Date.text_lt_iff_ordinal.2 hlt, rfl⟩⟩

/-- A text passes as a date exactly when it is that of a day of the calendar, as all days and points in time do once
they are texts. Front matter that has no issue with its type, which takes days for the last edit and for the summary,
has the texts of days where it has these two; and the summary is told of as stale exactly when both are there and its
day is the earlier one. -/
theorem stale_iff_earlier_day :
    (∀ s, isIsoDate s = true ↔ ∃ d : Date, s = d.text) ∧
    (∀ v : Value, v.isDay = true → ∃ s, v.datesAsText = .str s ∧ isIsoDate s = true) ∧
    ∀ (r : Registry) (config : Config) (m : Mapping) (e : SchemaEntry), r.entryOf? config m = some e →
      e.schema.TakesDays "updated" → e.schema.TakesDays "summarisedAt" →
      e.schema.issues (m.put "type" (.str e.type)) = [] →
      (∀ key ∈ ["updated", "summarisedAt"], ∀ v, m.get? key = some v → ∃ d : Date, v.bare = .str d.text) ∧
      ((∃ i ∈ r.validate config m, i.code = .staleSummary) ↔
        ∃ updated summarised : Date, m.get? "updated" = some (.str updated.text) ∧
          m.get? "summarisedAt" = some (.str summarised.text) ∧ summarised.ordinal < updated.ordinal) := by
  refine ⟨fun s => isIsoDate_iff, fun v hv => ?_, fun r config m e he hupdated hsummarised hissues => ?_⟩
  · obtain ⟨d, hd⟩ := Value.exists_of_isDay hv
    exact ⟨d.text, hd, isIsoDate_iff.2 ⟨d, rfl⟩⟩
  · have hday : ∀ {key}, e.schema.TakesDays key → ∀ v, m.get? key = some v → ∃ d : Date, v.bare = .str d.text :=
      fun hkey v hv => hkey.exists_day hissues (by rw [Dictionary.get?_put, if_neg hkey.ne_type, hv])
    have hdays : ∀ key ∈ ["updated", "summarisedAt"], ∀ v, m.get? key = some v → ∃ d : Date, v.bare = .str d.text := by
      intro key hkey
      obtain rfl | hkey := List.mem_cons.1 hkey
      · exact hday hupdated
      · obtain rfl := List.mem_singleton.1 hkey
        exact hday hsummarised
    exact ⟨hdays, (exists_staleSummary_iff he hissues).trans (exists_staleSummary?_iff hdays)⟩

/-- A summary of a leap day, and an edit on the day after. -/
theorem stale_iff_earlier_day_leap :
    let m : Mapping := [("type", .str "spike"), ("id", .str "a"), ("title", .str "t"), ("status", .str "open"),
      ("summarisedAt", .str "2024-02-29"), ("updated", .str "2024-03-01")]
    (Value.shared ⟨0, 0⟩ (.date ⟨2024, 2, 29, by decide, by decide, by decide⟩)).isDay = true ∧
    isIsoDate "2024-02-29" = true ∧
    ∃ e, standard.entryOf? .default m = some e ∧ e.schema.TakesDays "updated" ∧ e.schema.TakesDays "summarisedAt" ∧
      e.schema.issues (m.put "type" (.str e.type)) = [] ∧
      ∃ i ∈ standard.validate .default m, i.code = .staleSummary := by
  intro m
  obtain ⟨hdate, -, hstale⟩ := stale_iff_earlier_day
  have hentry : (standard.entryOf? .default m).any (fun e => decide (e.schema.TakesDays "updated" ∧
      e.schema.TakesDays "summarisedAt" ∧ e.schema.issues (m.put "type" (.str e.type)) = [])) = true := by decide +kernel
  obtain ⟨e, he, hdays⟩ := (Option.any_eq_true _ _).1 hentry
  obtain ⟨hupdated, hsummarised, hissues⟩ := of_decide_eq_true hdays
  refine ⟨rfl, (hdate _).2 ⟨⟨2024, 2, 29, by decide, by decide, by decide⟩, by decide +kernel⟩, e, he, hupdated, hsummarised,
    hissues, (hstale standard .default m e he hupdated hsummarised hissues).2.2 ?_⟩
  exact ⟨⟨2024, 3, 1, by decide, by decide, by decide⟩, ⟨2024, 2, 29, by decide, by decide, by decide⟩,
    by decide +kernel, by decide +kernel, by decide +kernel⟩

end Registry

end NoteVault
