import NoteVault.Note

/-!
What decoding a note comes to: front matter and no issue, one issue and the whole text as the body, or a value
that cannot be formed.
-/
namespace NoteVault.Note

/-- The code of the issue of a note without readable front matter. -/
def faultCode (content : String) : IssueCode :=
  if (opening? content.toList).isNone then .missing else .parseError

/-- A note that is decoded has one issue, an error, and no front matter, or front matter and no issue. -/
theorem parse_cases {content : String} {note : Note} (h : parse content = .ok note) :
    (∃ header issue, note = faulty content header issue ∧ issue.severity = .error ∧ issue.code = faultCode content) ∨
      ∃ header body v entries, note = ⟨some (Value.normalEntries entries), body, [], header⟩ ∧
        split content = some (header, body) ∧ Yaml.read header = .ok v ∧ mappingOf? v = some entries := by
  unfold parse at h
  unfold faultCode
  split at h
  next hopening =>
    cases h
    exact .inl ⟨_, _, rfl, rfl, by rw [if_pos hopening]; rfl⟩
  next hopening =>
    split at h
    · cases h
      exact .inl ⟨_, _, rfl, rfl, by rw [if_neg hopening]; rfl⟩
    next header body hsplit =>
      split at h
      next =>
        split at h
        · cases h
        all_goals
          cases h
          exact .inl ⟨_, _, rfl, rfl, by rw [if_neg hopening]; rfl⟩
      next v hread =>
        split at h
        · cases h
          exact .inl ⟨_, _, rfl, rfl, by rw [if_neg hopening]; rfl⟩
        next entries hentries =>
          cases h
          exact .inr ⟨header, body, v, entries, rfl, hsplit, hread, hentries⟩

/-- The front matter of a note is read from its header. -/
theorem exists_of_parse {content : String} {note : Note} {m : Mapping} (h : parse content = .ok note)
    (hm : note.data = some m) : ∃ v entries, split content = some (note.header, note.body) ∧
      Yaml.read note.header = .ok v ∧ mappingOf? v = some entries ∧ m = Value.normalEntries entries := by
  obtain ⟨_, _, rfl, -, -⟩ | ⟨header, body, v, entries, rfl, hsplit, hread, hentries⟩ := parse_cases h
  · cases hm
  · cases hm
    exact ⟨v, entries, hsplit, hread, hentries, rfl⟩

end NoteVault.Note
