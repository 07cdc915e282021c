import NoteVault.Config.File
import NoteVault.Proofs.Text.Utf8
import NoteVault.Proofs.Toml.Document

/-!
Loading settings, from any folder and any octets. It ends with settings or with an error of the settings, unless the
path holds a null character, the octets of the file are no text, or an integer in it has too many digits.
-/
namespace NoteVault.Config

/-- Settings, or an error of the settings. -/
def Settles (x : Except LoadError Config) : Prop := (∃ c, x = .ok c) ∨ ∃ e, x = .error e ∧ e.isConfigError = true

/-- The path can be opened, and a file that is there holds a text without too many digits in a row. -/
structure IsLegible (f : Folder) (root : String) (path : FilePath) : Prop where
  place : '\x00' ∉ (FilePath.text (root :: path)).toList
  content : ∀ octets, f.read path = .ok octets → ∃ text : List Char, octets = text.flatMap String.utf8EncodeChar ∧
    ∀ n, Number.maxDigits < n → ¬ Toml.HoldsDigits text n

/-- How loading fails other than with an error of the settings. -/
inductive Escapes (f : Folder) (root : String) (path : FilePath) : LoadError → Prop
  | nullCharacter (hplace : '\x00' ∈ (FilePath.text (root :: path)).toList) : Escapes f root path .nullCharacter
  | encoding {octets : List UInt8} {fault : Utf8.Fault} (hplace : '\x00' ∉ (FilePath.text (root :: path)).toList)
    (hread : f.read path = .ok octets) (hoctets : ∀ text : List Char, octets ≠ text.flatMap String.utf8EncodeChar)
    (hfault : Utf8.decode octets = .error fault) : Escapes f root path (.encoding fault)
  | longInteger {text : List Char} {n : Nat} (hplace : '\x00' ∉ (FilePath.text (root :: path)).toList)
    (hread : f.read path = .ok (text.flatMap String.utf8EncodeChar))
    (hlong : Toml.read text = .error (.longInteger n)) :
    Escapes f root path (.longInteger n)

variable {f : Folder} {root place : String} {path : FilePath} {octets : List UInt8} {text : List Char} {e : LoadError}

theorem settles_error (h : e.isConfigError = true) : Settles (.error e) := .inr ⟨e, rfl, h⟩

theorem Settles.isConfigError (h : Settles (.error e)) : e.isConfigError = true := by
  obtain ⟨c, hc⟩ | ⟨e', he, hconfig⟩ := h
  · cases hc
  · exact Except.error.inj he ▸ hconfig

theorem load_of_null (h : '\x00' ∈ (FilePath.text (root :: path)).toList) :
    load f root path = .error .nullCharacter := by
  rw [load, if_pos (List.contains_iff_mem.2 h)]
  rfl

theorem load_of_read_error {e : ReadError} (hplace : '\x00' ∉ (FilePath.text (root :: path)).toList)
    (h : f.read path = .error e) : load f root path = .error (.unreadable (FilePath.text (root :: path)) e) := by
  rw [load, if_neg (mt List.contains_iff_mem.1 hplace), h]
  rfl

theorem load_of_read (hplace : '\x00' ∉ (FilePath.text (root :: path)).toList) (h : f.read path = .ok octets) :
    load f root path = ofOctets (FilePath.text (root :: path)) octets := by
  rw [load, if_neg (mt List.contains_iff_mem.1 hplace), h]
  rfl

theorem ofOctets_of_not_text {fault : Utf8.Fault} (h : Utf8.decode octets = .error fault) :
    ofOctets place octets = .error (.encoding fault) := by
  rw [ofOctets, h]
  rfl

theorem ofOctets_of_long {n : Nat} (h : Toml.read text = .error (.longInteger n)) :
    ofOctets place (text.flatMap String.utf8EncodeChar) = .error (.longInteger n) := by
  simp only [ofOctets, Utf8.decode_eq_ok_iff.2 rfl, Except.mapError, bind, Except.bind, h]
  rfl

theorem ofOctets_of_text (h : ∀ n, Toml.read text ≠ .error (.longInteger n)) :
    Settles (ofOctets place (text.flatMap String.utf8EncodeChar)) := by
  simp only [ofOctets, Utf8.decode_eq_ok_iff.2 rfl, Except.mapError, bind, Except.bind]
  cases hread : Toml.read text with
  | ok m =>
    dsimp only
    cases ofMapping m with
    | ok c => exact .inl ⟨c, rfl⟩
    | error e => exact settles_error rfl
  | error e =>
    cases e with
    | fault t => exact settles_error (e := .malformed place t) rfl
    | longInteger n => exact absurd hread (h n)

theorem Escapes.load_eq (h : Escapes f root path e) : load f root path = .error e ∧ e.isConfigError = false := by
  obtain hplace | ⟨hplace, hread, -, hfault⟩ | ⟨hplace, hread, hlong⟩ := h
  · exact ⟨load_of_null hplace, rfl⟩
  · exact ⟨(load_of_read hplace hread).trans (ofOctets_of_not_text hfault), rfl⟩
  · exact ⟨(load_of_read hplace hread).trans (ofOctets_of_long hlong), rfl⟩

theorem settles_or_escapes (f : Folder) (root : String) (path : FilePath) :
    Settles (load f root path) ∨ ∃ e, Escapes f root path e := by
  by_cases hplace : '\x00' ∈ (FilePath.text (root :: path)).toList
  · exact .inr ⟨_, .nullCharacter hplace⟩
  cases hread : f.read path with
  | error e =>
    rw [load_of_read_error hplace hread]
    exact .inl (settles_error rfl)
  | ok octets =>
    cases hdecode : Utf8.decode octets with
    | error fault => exact .inr ⟨_, .encoding hplace hread (Utf8.ne_of_decode_error hdecode) hdecode⟩
    | ok text =>
      obtain rfl := Utf8.decode_eq_ok_iff.1 hdecode
      by_cases hlong : ∃ n, Toml.read text = .error (.longInteger n)
      · obtain ⟨n, hlong⟩ := hlong
        exact .inr ⟨_, .longInteger hplace hread hlong⟩
      · rw [load_of_read hplace hread]
        exact .inl (ofOctets_of_text (not_exists.1 hlong))

theorem load_escapes_iff : load f root path = .error e ∧ e.isConfigError = false ↔ Escapes f root path e := by
  refine ⟨fun ⟨herror, hconfig⟩ => ?_, Escapes.load_eq⟩
  obtain hsettles | ⟨e', hescapes⟩ := settles_or_escapes f root path
  · rw [herror] at hsettles
    cases hconfig.symm.trans hsettles.isConfigError
  · rw [hescapes.load_eq.1] at herror
    exact Except.error.inj herror ▸ hescapes

/-- What is legible does not escape. -/
theorem IsLegible.not_escapes (h : IsLegible f root path) : ¬ Escapes f root path e := by
  rintro (hplace | ⟨-, hread, hoctets, -⟩ | ⟨-, hread, hlong⟩)
  · exact h.place hplace
  · obtain ⟨text, htext, -⟩ := h.content _ hread
    exact hoctets text htext
  · obtain ⟨text, htext, hshort⟩ := h.content _ hread
    obtain rfl := Utf8.encode_inj htext
    obtain ⟨hmax, hdigits⟩ := Toml.holdsDigits_of_read hlong
    exact hshort _ hmax hdigits

theorem IsLegible.settles (h : IsLegible f root path) : Settles (load f root path) := by
  obtain hsettles | ⟨e, hescapes⟩ := settles_or_escapes f root path
  · exact hsettles
  · exact absurd hescapes h.not_escapes

/-- Loading settings, those of a file that is named or those of a vault, ends with settings or with an error of the
settings if the file is legible. All other failures are a null character in the path, octets that are no text, and an
integer of too many digits. -/
theorem load_settles (f : Folder) (root : String) :
    (∀ path, IsLegible f root path → Settles (load f root path)) ∧
    (∀ path e, load f root path = .error e ∧ e.isConfigError = false ↔ Escapes f root path e) ∧
    (∀ named, (∀ path ∈ named.or ((find? f).map ([·])), IsLegible f root path) → Settles (loadVault f root named)) ∧
    ∀ named e, loadVault f root named = .error e ∧ e.isConfigError = false ↔
      ∃ path ∈ named.or ((find? f).map ([·])), Escapes f root path e := by
  refine ⟨fun path h => h.settles, fun path e => load_escapes_iff, fun named h => ?_, fun named e => ?_⟩
  · unfold loadVault
    cases hpath : named.or ((find? f).map ([·])) with
    | none => exact .inl ⟨default, rfl⟩
    | some path => exact (h path hpath).settles
  · unfold loadVault
    cases hpath : named.or ((find? f).map ([·])) with
    | none => simp
    | some path => simpa using load_escapes_iff

/-- A vault's own file is loaded, and a file that is named and not there is an error of the settings. -/
theorem load_settles_version :
    let f := Folder.empty.write [".vaultlint.toml"] ("version = '2'".toList.flatMap String.utf8EncodeChar)
    IsLegible f "v" [".vaultlint.toml"] ∧ Settles (loadVault f "v" none) ∧
      IsLegible f "v" ["vaultlint.toml"] ∧ Settles (load f "v" ["vaultlint.toml"]) := by
  intro f
  obtain ⟨hload, -, hvault, -⟩ := load_settles f "v"
  have hmissing : IsLegible f "v" ["vaultlint.toml"] := ⟨by decide +kernel, nofun⟩
  have hversion : IsLegible f "v" [".vaultlint.toml"] := by
    refine ⟨by decide +kernel, fun octets hread => ?_⟩
    obtain rfl := Except.ok.inj hread
    refine ⟨_, rfl, fun n hn hdigits => ?_⟩
    exact absurd (hn.trans_le hdigits.le_length) (by decide)
  refine ⟨hversion, hvault none fun path hpath => ?_, hmissing, hload _ hmissing⟩
  obtain rfl := Option.some.inj hpath
  exact hversion

/-- A single octet that is no text. -/
theorem load_escapes_octet :
    ¬ ∀ f root path e, load f root path = .error e → e.isConfigError = true := by
  intro h
  have hescapes : load (Folder.empty.write ["vaultlint.toml"] [0xFF]) "v" ["vaultlint.toml"] =
      .error (.encoding ⟨.invalidStart, 0, 1, 0xFF⟩) := by rfl
  cases h _ _ _ _ hescapes

end NoteVault.Config
