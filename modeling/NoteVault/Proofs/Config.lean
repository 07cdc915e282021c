import NoteVault.Proofs.Dictionary
import NoteVault.Proofs.Glob

/-!
Settings that are accepted, and what becomes of their patterns. A table is accepted for the kinds of its values; what
its patterns say is not looked at, so that accepted settings can be of no use.
-/
namespace NoteVault

namespace Config

/-- What a setting of a table is: its default where it is missing, else what its value stands for. -/
def IsSetting {α : Type} (m : Mapping) (key : String) (read : Value → Option α) (default a : α) : Prop :=
  match m.get? key with
  | none => a = default
  | some v => read v = some a

/-- All settings of a table, which has no other keys. -/
structure IsOf (c : Config) (m : Mapping) : Prop where
  keys : ∀ key ∈ m.keys, key ∈ tableKeys
  version : IsSetting m "version" text? default.version c.version
  typeMappings : IsSetting m "type_mappings" textTable? [] c.typeMappings
  excludeGlobs : IsSetting m "exclude_globs" texts? [] c.excludeGlobs
  validation : ∃ validation, IsSetting m "validation" table? [] validation ∧
    (∀ key ∈ validation.keys, key ∈ validationKeys) ∧
    IsSetting validation "warn_on_mapped_types" truth? false c.warnOnMappedTypes

variable {m : Mapping} {c : Config}

section Settings

variable {α : Type} {key : String} {read : Value → Option α} {default a : α} {problem : ConfigProblem}

/-- A setting has no problem exactly where it has its meaning. -/
theorem setting_eq_iff : setting m key read default problem = (a, []) ↔ IsSetting m key read default a := by
  unfold setting IsSetting
  cases m.get? key with
  | none => simp [eq_comm]
  | some v => cases hread : read v <;> simp [hread]

theorem strange_eq_nil_iff {problem : List String → ConfigProblem} {known : List String} :
    strange problem known m = [] ↔ ∀ key ∈ m.keys, key ∈ known := by
  have hkeys : strangeKeys known m = [] ↔ ∀ key ∈ m.keys, key ∈ known := by
    rw [strangeKeys, ← List.perm_nil, (Text.sorted_perm _).congr_left, List.perm_nil, List.filter_eq_nil_iff]
    simp
  rw [← hkeys, strange]
  cases strangeKeys known m with
  | nil => simp
  | cons key keys => simp

end Settings

/-- A table is accepted exactly for its settings. -/
theorem ofMapping_eq_ok_iff : ofMapping m = .ok c ↔ c.IsOf m := by
  constructor
  · intro h
    unfold ofMapping at h
    cases hversion : setting m "version" text? default.version .version with | mk version p₁
    cases hmappings : setting m "type_mappings" textTable? [] .typeMappings with | mk mappings p₂
    cases hglobs : setting m "exclude_globs" texts? [] .excludeGlobs with | mk globs p₃
    cases hvalidation : setting m "validation" table? [] .validation with | mk validation p₄
    cases hwarn : setting validation "warn_on_mapped_types" truth? false .warnOnMappedTypes with | mk warn p₅
    simp only [hversion, hmappings, hglobs, hvalidation, hwarn] at h
    split at h
    next hnone =>
      cases h
      simp only [List.isEmpty_iff, List.append_eq_nil_iff] at hnone
      obtain ⟨⟨⟨⟨⟨⟨hkeys, rfl⟩, rfl⟩, rfl⟩, rfl⟩, hknown⟩, rfl⟩ := hnone
      exact ⟨strange_eq_nil_iff.1 hkeys, setting_eq_iff.1 hversion, setting_eq_iff.1 hmappings, setting_eq_iff.1 hglobs,
        validation, setting_eq_iff.1 hvalidation, strange_eq_nil_iff.1 hknown, setting_eq_iff.1 hwarn⟩
    next => cases h
  · rintro ⟨hkeys, hversion, hmappings, hglobs, validation, hvalidation, hknown, hwarn⟩
    unfold ofMapping
    rw [setting_eq_iff.2 hversion, setting_eq_iff.2 hmappings, setting_eq_iff.2 hglobs, setting_eq_iff.2 hvalidation]
    simp only [setting_eq_iff.2 hwarn, strange_eq_nil_iff.2 hkeys, strange_eq_nil_iff.2 hknown]
    rfl

theorem texts?_texts (globs : List String) : texts? (.list (globs.map .str)) = some globs := by
  induction globs with
  | nil => rfl
  | cons glob globs ih =>
    simp only [texts?, Value.bare] at ih
    simp [texts?, text?, Value.bare, ih]

/-- Other patterns are accepted in the place of those of a table, whatever they say. -/
theorem IsOf.put_excludeGlobs (h : c.IsOf m) (globs : List String) :
    IsOf { c with excludeGlobs := globs } (m.put "exclude_globs" (.list (globs.map .str))) := by
  have hother : ∀ {α : Type} {key : String} {read : Value → Option α} {default a : α}, key ≠ "exclude_globs" →
      IsSetting m key read default a →
      IsSetting (m.put "exclude_globs" (.list (globs.map .str))) key read default a := fun hkey hsetting => by
    rwa [IsSetting, Dictionary.get?_put, if_neg hkey]
  refine ⟨fun key hkey => ?_, hother (by decide) h.version, hother (by decide) h.typeMappings, ?_, ?_⟩
  · rw [Dictionary.keys_put] at hkey
    split at hkey
    · exact h.keys key hkey
    · obtain hkey | hkey := List.mem_append.1 hkey
      · exact h.keys key hkey
      · rw [List.mem_singleton.1 hkey]
        decide
  · rw [IsSetting, Dictionary.get?_put, if_pos rfl]
    exact texts?_texts globs
  · obtain ⟨validation, hvalidation, hrest⟩ := h.validation
    exact ⟨validation, hother (by decide) hvalidation, hrest⟩

/-- The first of the patterns that have no meaning fails. -/
def FailsWith (c : Config) (e : GlobError) : Prop :=
  ∃ before glob after, c.excludeGlobs = before ++ glob :: after ∧ (∀ g ∈ before, Glob.IsUsable g) ∧ Glob.Fails glob e

/-- The patterns are read before the path is looked at. -/
theorem excludes_eq (c : Config) (path : String) : c.excludes path =
    (c.excludeGlobs.mapM Glob.ofText?).map fun globs => Glob.anyExcludes (globs.filterMap id) path.toList := by
  rw [excludes, Glob.exclude, Glob.ofLines]
  cases c.excludeGlobs.mapM Glob.ofText? <;> rfl

theorem exists_excludes_iff (c : Config) (path : String) :
    (∃ excluded, c.excludes path = .ok excluded) ↔ ∀ g ∈ c.excludeGlobs, Glob.IsUsable g := by
  have hread : (∃ globs, c.excludeGlobs.mapM Glob.ofText? = .ok globs) ↔ ∀ g ∈ c.excludeGlobs, Glob.IsUsable g := by
    rw [exists_mapM_eq_ok]
    exact forall₂_congr fun g _ => Glob.exists_ofText?_iff
  rw [← hread, excludes_eq]
  cases c.excludeGlobs.mapM Glob.ofText? <;> simp [Except.map]

theorem excludes_eq_error_iff (path : String) {e : GlobError} : c.excludes path = .error e ↔ c.FailsWith e := by
  have hread : c.excludeGlobs.mapM Glob.ofText? = .error e ↔ c.FailsWith e := by
    simp only [mapM_eq_error_iff, FailsWith, Glob.exists_ofText?_iff, Glob.ofText?_eq_error_iff]
  rw [← hread, excludes_eq]
  cases c.excludeGlobs.mapM Glob.ofText? <;> simp [Except.map]

end Config

namespace Folder

variable {f : Folder} {c : Config} {file : FilePath × List UInt8} {e : GlobError}

/-- A file fails to become a note or an omission only where its path cannot be matched. -/
theorem noteOf_cases (c : Config) (file : FilePath × List UInt8) :
    (∃ e, c.excludes file.1.text = .error e ∧ noteOf c file = .error e) ∨
      ∃ excluded note, c.excludes file.1.text = .ok excluded ∧ noteOf c file = .ok note := by
  cases h : c.excludes file.1.text with
  | error e => exact .inl ⟨e, rfl, by rw [noteOf, h]; rfl⟩
  | ok excluded =>
    refine .inr ⟨excluded, ?_⟩
    cases excluded with
    | true => exact ⟨_, rfl, by rw [noteOf, h]; rfl⟩
    | false =>
      cases hdecode : Utf8.decode file.2 with
      | ok text => exact ⟨_, rfl, by rw [noteOf, h]; simp only [hdecode]; rfl⟩
      | error fault => exact ⟨_, rfl, by rw [noteOf, h]; simp only [hdecode]; rfl⟩

theorem noteOf_eq_error_iff : noteOf c file = .error e ↔ c.FailsWith e := by
  rw [← Config.excludes_eq_error_iff file.1.text]
  obtain ⟨e', hexcludes, hnote⟩ | ⟨excluded, note, hexcludes, hnote⟩ := noteOf_cases c file
  · rw [hexcludes, hnote, Except.error.injEq, Except.error.injEq]
  · simp [hexcludes, hnote]

theorem exists_noteOf_iff : (∃ note, noteOf c file = .ok note) ↔ ∀ g ∈ c.excludeGlobs, Glob.IsUsable g := by
  rw [← c.exists_excludes_iff file.1.text]
  obtain ⟨e', hexcludes, hnote⟩ | ⟨excluded, note, hexcludes, hnote⟩ := noteOf_cases c file
  · simp [hexcludes, hnote]
  · simp [hexcludes, hnote]

theorem exists_notes_iff :
    (∃ found, f.notes c = .ok found) ↔ f.noteFiles = [] ∨ ∀ g ∈ c.excludeGlobs, Glob.IsUsable g := by
  have hread : (∃ all, f.noteFiles.mapM (noteOf c) = .ok all) ↔
      f.noteFiles = [] ∨ ∀ g ∈ c.excludeGlobs, Glob.IsUsable g := by
    simp only [exists_mapM_eq_ok, exists_noteOf_iff]
    cases f.noteFiles with
    | nil => simp
    | cons file files => simpa using fun h _ _ _ => h
  rw [← hread, notes]
  cases f.noteFiles.mapM (noteOf c) <;> simp [bind, Except.bind, pure, Except.pure]

theorem notes_eq_error_iff : f.notes c = .error e ↔ f.noteFiles ≠ [] ∧ c.FailsWith e := by
  have hread : f.noteFiles.mapM (noteOf c) = .error e ↔ f.noteFiles ≠ [] ∧ c.FailsWith e := by
    rw [mapM_eq_error_iff]
    constructor
    · rintro ⟨before, file, after, hfiles, -, hfile⟩
      exact ⟨by simp [hfiles], noteOf_eq_error_iff.1 hfile⟩
    · rintro ⟨hfiles, hfails⟩
      obtain ⟨file, files, hfiles⟩ := List.exists_cons_of_ne_nil hfiles
      exact ⟨[], file, files, hfiles, by simp, noteOf_eq_error_iff.2 hfails⟩
  rw [← hread, notes]
  cases f.noteFiles.mapM (noteOf c) <;> simp [bind, Except.bind, pure, Except.pure]

end Folder

namespace Config

/-- Accepted settings exclude or keep each path if all their patterns have a meaning. Otherwise they fail for every path
and for every folder with a note in it, with the first of the patterns that have none; and what the patterns say has no
part in their being accepted. -/
theorem accepted_excludes_iff (m : Mapping) (c : Config) (h : ofMapping m = .ok c) :
    (∀ globs : List String, ofMapping (m.put "exclude_globs" (.list (globs.map .str))) = .ok { c with excludeGlobs := globs }) ∧
    (∀ path, (∃ excluded, c.excludes path = .ok excluded) ↔ ∀ g ∈ c.excludeGlobs, Glob.IsUsable g) ∧
    (∀ path e, c.excludes path = .error e ↔ c.FailsWith e) ∧
    ∀ f : Folder, ((∃ found, f.notes c = .ok found) ↔ f.noteFiles = [] ∨ ∀ g ∈ c.excludeGlobs, Glob.IsUsable g) ∧
      ∀ e, f.notes c = .error e ↔ f.noteFiles ≠ [] ∧ c.FailsWith e := by
  refine ⟨fun globs => ?_, exists_excludes_iff c, fun path e => excludes_eq_error_iff path, fun f => ?_⟩
  · exact ofMapping_eq_ok_iff.2 ((ofMapping_eq_ok_iff.1 h).put_excludeGlobs globs)
  · exact ⟨Folder.exists_notes_iff, fun e => Folder.notes_eq_error_iff⟩

/-- Settings that can be used on every folder. -/
theorem accepted_excludes_iff_archive :
    let c : Config := ⟨"1.0", [], ["_archive/**", "![a-c]*.md"], false⟩
    ofMapping [("exclude_globs", .list [.str "_archive/**", .str "![a-c]*.md"])] = .ok c ∧
      (∀ g ∈ c.excludeGlobs, Glob.IsUsable g) ∧ ∀ f : Folder, ∃ found, f.notes c = .ok found := by
  intro c
  have haccepted : ofMapping [("exclude_globs", .list [.str "_archive/**", .str "![a-c]*.md"])] = .ok c := by decide +kernel
  obtain ⟨-, hexcludes, -, hnotes⟩ := accepted_excludes_iff _ c haccepted
  have hkept : c.excludes "_archive/a.md" = .ok false := by decide +kernel
  have husable := (hexcludes "_archive/a.md").1 ⟨false, hkept⟩
  exact ⟨haccepted, husable, fun f => (hnotes f).1.2 (.inr husable)⟩

/-- A lone `!` is accepted as a pattern, and no path can be matched against it. -/
theorem accepted_mark_fails :
    ¬ ∀ (m : Mapping) (c : Config) (path : String), ofMapping m = .ok c → ∃ excluded, c.excludes path = .ok excluded := by
  intro h
  obtain ⟨excluded, hok⟩ := h [("exclude_globs", .list [.str "!"])] ⟨"1.0", [], ["!"], false⟩ "a.md" (by decide +kernel)
  have hfails : (⟨"1.0", [], ["!"], false⟩ : Config).excludes "a.md" = .error (.invalid "!") := by decide +kernel
  rw [hfails] at hok
  cases hok

end Config

end NoteVault
