import NoteVault.Proofs.Repair.Keys
import NoteVault.Proofs.Validation.Reasons
import NoteVault.Schema.Standard

/-!
Repairs that fill gaps: defaults for fields that are missing, a title and an identity where there is none. They leave
the order of keys and everything that is not blank as it is. A second run changes nothing, unless the identity of a type
is the type itself: then the type that was inferred may be one whose notes lack an identity.
-/
namespace NoteVault

namespace Schema

variable (s : Schema)

/-- The fields that are not optional, which a new note has. -/
def neededNames : List String := (s.fields.filter (!·.optional)).map Field.name

theorem keys_defaults : s.defaults.keys = s.neededNames := by
  simp [defaults, neededNames, Dictionary.keys, Function.comp_def]

theorem nodup_neededNames : s.neededNames.Nodup := s.names_nodup.sublist (List.filter_sublist.map _)

theorem mem_neededNames {f : Field} (hf : f ∈ s.fields) : f.name ∈ s.neededNames ↔ f.optional = false := by
  rw [neededNames, List.mem_map]
  constructor
  · rintro ⟨g, hg, hname⟩
    obtain ⟨hmem, hoptional⟩ := List.mem_filter.1 hg
    rw [← s.eq_of_name_eq hmem hf hname]
    simpa using hoptional
  · intro h
    exact ⟨f, List.mem_filter.2 ⟨hf, by simpa using h⟩, rfl⟩

theorem get?_defaults {f : Field} (hf : f ∈ s.fields) (hoptional : f.optional = false) :
    s.defaults.get? f.name = some f.defaultValue := by
  refine Dictionary.get?_of_mem ?_ (List.mem_map.2 ⟨f, List.mem_filter.2 ⟨hf, by simpa using hoptional⟩, rfl⟩)
  rw [keys_defaults]
  exact s.nodup_neededNames

end Schema

namespace Mapping

variable {m n : Mapping} {key : String}

/-- Keys stay where they are and new ones come behind them, each of them once, and what is not blank is kept. -/
structure Fills (m n : Mapping) : Prop where
  keys : m.keys <+: n.keys
  nodup : m.keys.Nodup → n.keys.Nodup
  kept : ∀ key, m.isBlankAt key = false → n.get? key = m.get? key

theorem Fills.refl (m : Mapping) : m.Fills m := ⟨List.prefix_refl _, id, fun _ _ => rfl⟩

theorem fills_put (h : m.isBlankAt key = true) (v : Value) : m.Fills (m.put key v) where
  keys := by
    rw [Dictionary.keys_put]
    split
    · exact List.prefix_refl _
    · exact List.prefix_append _ _
  nodup hm := Dictionary.keys_put_nodup hm key v
  kept other hother := by
    rw [Dictionary.get?_put, if_neg]
    rintro rfl
    cases h.symm.trans hother

end Mapping

namespace Repair

open Mapping Registry

variable {r : Registry} {config : Config} {m : Mapping} {e : SchemaEntry}

section Defaults

theorem fillDefaults_of_entry (he : r.entryOf? config m = some e) :
    fillDefaults r config m = m ++ e.schema.defaults.filter fun (key, _) => !m.has key := by
  rw [fillDefaults, he]

theorem keys_fillDefaults (he : r.entryOf? config m = some e) :
    (fillDefaults r config m).keys = m.keys ++ e.schema.neededNames.filter (· ∉ m.keys) := by
  have hadded : Dictionary.keys (e.schema.defaults.filter fun (key, _) => !m.has key) =
      e.schema.neededNames.filter (· ∉ m.keys) := by
    rw [← Schema.keys_defaults]
    refine (Dictionary.keys_filter (!m.has ·) _).trans (List.filter_congr fun key _ => ?_)
    rw [Bool.eq_iff_iff, Bool.not_eq_true', ← Bool.not_eq_true, Dictionary.has_iff, decide_eq_true_iff]
  rw [fillDefaults_of_entry he, ← hadded]
  exact List.map_append

theorem get?_fillDefaults {key : String} (hkey : key ∈ m.keys) : (fillDefaults r config m).get? key = m.get? key := by
  cases he : r.entryOf? config m with
  | none => rw [fillDefaults, he]
  | some e =>
    obtain ⟨v, hv⟩ := Dictionary.mem_keys_iff.1 hkey
    rw [fillDefaults_of_entry he, Dictionary.get?_append, hv, Option.some_or]

theorem fills_fillDefaults (r : Registry) (config : Config) (m : Mapping) : m.Fills (fillDefaults r config m) := by
  cases he : r.entryOf? config m with
  | none =>
    rw [fillDefaults, he]
    exact .refl m
  | some e =>
    refine ⟨?_, fun hm => ?_, fun key hkey => get?_fillDefaults ?_⟩
    · rw [keys_fillDefaults he]
      exact List.prefix_append _ _
    · rw [keys_fillDefaults he]
      refine List.nodup_append.2 ⟨hm, e.schema.nodup_neededNames.filter _, fun key hkey other hother heq => ?_⟩
      exact of_decide_eq_true (List.mem_filter.1 hother).2 (heq ▸ hkey)
    · by_contra hnone
      rw [isBlankAt, Dictionary.get?_eq_none_iff.2 hnone] at hkey
      cases hkey

/-- Front matter has every field that is not optional when defaults are filled in. -/
theorem mem_keys_fillDefaults (he : r.entryOf? config m = some e) {f : Field} (hf : f ∈ e.schema.fields)
    (hoptional : f.optional = false) : f.name ∈ (fillDefaults r config m).keys := by
  have hneeded := (e.schema.mem_neededNames hf).2 hoptional
  rw [keys_fillDefaults he, List.mem_append, List.mem_filter, decide_eq_true_iff]
  tauto

theorem entryOf?_fillDefaults (r : Registry) (config : Config) (m : Mapping) :
    r.entryOf? config (fillDefaults r config m) = r.entryOf? config m := by
  cases he : r.entryOf? config m with
  | none => rw [fillDefaults, he, he]
  | some e => rw [← he, entryOf?_congr (get?_fillDefaults (type_mem_keys he))]

theorem fillDefaults_fillDefaults (r : Registry) (config : Config) (m : Mapping) :
    fillDefaults r config (fillDefaults r config m) = fillDefaults r config m := by
  cases he : r.entryOf? config m with
  | none => rw [fillDefaults, entryOf?_fillDefaults, he]
  | some e =>
    have hnone : (e.schema.defaults.filter fun (key, _) => !(fillDefaults r config m).has key) = [] := by
      rw [List.filter_eq_nil_iff]
      intro entry hentry
      obtain ⟨f, hf, rfl⟩ := List.mem_map.1 hentry
      obtain ⟨hmem, hoptional⟩ := List.mem_filter.1 hf
      have hkey := mem_keys_fillDefaults he hmem (by simpa using hoptional)
      simpa using Dictionary.has_iff.2 hkey
    rw [fillDefaults_of_entry ((entryOf?_fillDefaults r config m).trans he), hnone, List.append_nil]

theorem message_fillDefaults (he : r.entryOf? config m = some e) {i : Issue}
    (hi : i ∈ r.validate config (fillDefaults r config m)) : i.message ≠ "Required" := by
  intro hmessage
  obtain ⟨e', he', f, hf, hrequired, hnone⟩ := (tells_of_mem_validate hi).required hmessage
  rw [entryOf?_fillDefaults, he] at he'
  cases he'
  have hoptional : f.optional = false := (by simpa [Field.required] using hrequired : _ ∧ _).1
  exact Dictionary.get?_eq_none_iff.1 hnone (mem_keys_fillDefaults he hf hoptional)

end Defaults

section Title

theorem titleFromPath_cases (path : String) (r : Registry) (config : Config) (m : Mapping) :
    titleFromPath path r config m = m ∨ m.isBlankAt "title" = true ∧
      titleFromPath path r config m = m.put "title" (.str (titleOf (FilePath.stem (FilePath.ofText path)))) := by
  unfold titleFromPath
  dsimp only
  split
  next h =>
    simp only [Bool.and_eq_true] at h
    exact .inr ⟨h.2, rfl⟩
  next => exact .inl rfl

theorem fills_titleFromPath (path : String) (r : Registry) (config : Config) (m : Mapping) :
    m.Fills (titleFromPath path r config m) := by
  obtain h | ⟨hblank, h⟩ := titleFromPath_cases path r config m
  · rw [h]
    exact .refl m
  · rw [h]
    exact fills_put hblank _

theorem titleFromPath_titleFromPath (path : String) (r : Registry) (config : Config) (m : Mapping) :
    titleFromPath path r config (titleFromPath path r config m) = titleFromPath path r config m := by
  obtain h | ⟨-, h⟩ := titleFromPath_cases path r config m
  · rw [h, h]
  · obtain htwice | ⟨-, htwice⟩ := titleFromPath_cases path r config (titleFromPath path r config m)
    · exact htwice
    · rw [htwice, h, Dictionary.put_put]

end Title

section Identity

/-- Infers the identity from a text that may be missing. -/
def inferFrom (r : Registry) (config : Config) (source : Mapping → Option String) : Repair := fun m =>
  match source m with
  | some name => inferId r config name m
  | none => m

theorem idFromPath_eq (path : String) (r : Registry) (config : Config) :
    idFromPath path r config = inferFrom r config fun _ => some (FilePath.stem (FilePath.ofText path)) := rfl

theorem idFromTitle_eq (r : Registry) (config : Config) :
    idFromTitle r config = inferFrom r config (text? · "title") := by
  have hempty : ∀ m, inferId r config "" m = m := fun m => by
    have hslug : Text.slug "" = "" := by decide
    unfold inferId
    split <;> simp [hslug]
  funext m
  unfold idFromTitle inferFrom text?
  split
  next title htitle =>
    by_cases hname : title = ""
    · simp [htitle, hname, hempty]
    · simp [htitle, hname]
  next => simp

/-- An identity that was blank becomes the type that stands for the declared one, a hyphen, and the slug of a name. -/
inductive Infers (r : Registry) (config : Config) (name : Option String) (m : Mapping) : Mapping → Prop
  | intro {declared text : String} {e : SchemaEntry} (hdeclared : m.declaredType? = some declared)
    (hentry : r.entry? (config.resolve declared) = some e) (hname : name = some text) (hslug : Text.slug text ≠ "")
    (hblank : m.isBlankAt e.idField = true) :
    Infers r config name m (m.put e.idField (.str (config.resolve declared ++ "-" ++ Text.slug text)))

variable {source : Mapping → Option String} {n : Mapping}

/-- A text with a hyphen is not blank. -/
theorem isBlankAt_put (m : Mapping) (key type slug : String) :
    isBlankAt (m.put key (.str (type ++ "-" ++ slug))) key = false := by
  have hhyphen : Text.isBlank '-' = false := by decide
  rw [isBlankAt, Dictionary.get?_put, if_pos rfl]
  simp [Text.isAllBlank, hhyphen]

theorem Infers.ne {name : Option String} (h : Infers r config name m n) : n ≠ m := by
  cases h with
  | @intro declared text e _ _ _ _ hblank =>
    intro heq
    have hfilled := isBlankAt_put m e.idField (config.resolve declared) (Text.slug text)
    rw [heq, hblank] at hfilled
    cases hfilled

theorem Infers.fills {name : Option String} (h : Infers r config name m n) : m.Fills n := by
  cases h with
  | intro _ _ _ _ hblank => exact fills_put hblank _

theorem inferFrom_of_infers (h : Infers r config (source m) m n) : inferFrom r config source m = n := by
  generalize hsource : source m = name at h
  cases h with
  | intro hdeclared hentry hname hslug hblank =>
    have he := entryOf?_eq_some_iff.2 ⟨_, hdeclared, hentry⟩
    simp [inferFrom, hsource, hname, inferId, he, hblank, hslug, entry?_type hentry]

theorem inferFrom_cases (r : Registry) (config : Config) (source : Mapping → Option String) (m : Mapping) :
    inferFrom r config source m = m ∨ Infers r config (source m) m (inferFrom r config source m) := by
  cases hname : source m with
  | none => exact .inl (by rw [inferFrom, hname])
  | some text =>
    cases he : r.entryOf? config m with
    | none => exact .inl (by simp [inferFrom, hname, inferId, he])
    | some e =>
      by_cases hgap : m.isBlankAt e.idField = true ∧ Text.slug text ≠ ""
      · obtain ⟨declared, hdeclared, hentry⟩ := entryOf?_eq_some_iff.1 he
        have hinfers := Infers.intro hdeclared hentry hname hgap.2 hgap.1
        rw [← hname, inferFrom_of_infers hinfers]
        exact .inr hinfers
      · refine .inl ?_
        simp only [inferFrom, hname, inferId, he]
        exact if_neg (by simpa using hgap)

theorem inferFrom_eq_self_iff : inferFrom r config source m = m ↔ ∀ n, ¬ Infers r config (source m) m n := by
  constructor
  · intro hsame n hinfers
    exact hinfers.ne ((inferFrom_of_infers hinfers).symm.trans hsame)
  · intro hnone
    exact (inferFrom_cases r config source m).resolve_right (hnone _)

/-- The identity that was inferred is the type itself, and that is now one whose notes lack an identity. -/
def Retypes (r : Registry) (config : Config) (m n : Mapping) : Prop :=
  n ≠ m ∧ ∃ e e', r.entryOf? config m = some e ∧ e.idField = "type" ∧
    r.entryOf? config n = some e' ∧ n.isBlankAt e'.idField = true

/-- Where an identity was inferred another one is inferred only for another type. -/
theorem Infers.exists_iff (hsource : ∀ v, source (m.put "type" v) = source m) (h : Infers r config (source m) m n) :
    (∃ n', Infers r config (source n) n n') ↔ Retypes r config m n := by
  have hne := h.ne
  generalize hfrom : source m = name at h
  cases h with
  | @intro declared text e hdeclared hentry hname hslug hblank =>
    have he := entryOf?_eq_some_iff.2 ⟨declared, hdeclared, hentry⟩
    constructor
    · rintro ⟨_, @⟨declared', _, e', hdeclared', hentry', _, _, hblank'⟩⟩
      have he' := entryOf?_eq_some_iff.2 ⟨declared', hdeclared', hentry'⟩
      refine ⟨hne, e, e', he, ?_, he', hblank'⟩
      -- with the type as it was, the entry is the same, and its identity is not blank any more
      by_contra hid
      have htype : (m.put e.idField (.str (config.resolve declared ++ "-" ++ Text.slug text))).get? "type" =
          m.get? "type" := by
        rw [Dictionary.get?_put, if_neg (Ne.symm hid)]
      rw [entryOf?_congr htype, he] at he'
      cases he'
      rw [isBlankAt_put] at hblank'
      cases hblank'
    · rintro ⟨-, f, e', hf, hid, he', hblank'⟩
      -- only the type has changed, so that the name is still there
      rw [he] at hf
      cases hf
      obtain ⟨declared', hdeclared', hentry'⟩ := entryOf?_eq_some_iff.1 he'
      refine ⟨_, .intro hdeclared' hentry' ?_ hslug hblank'⟩
      rw [hid, hsource, hfrom, hname]

/-- An inference of the identity fills a gap with what it should, and nothing else. A second run changes nothing unless
the first one made another type. -/
structure FillsIdentity (r : Registry) (config : Config) (infer : Repair) (name : Option String) (m : Mapping) :
    Prop where
  fills : m.Fills (infer m)
  infers : ∀ n, n ≠ m → (infer m = n ↔ Infers r config name m n)
  twice : infer (infer m) = infer m ↔ ¬ Retypes r config m (infer m)

theorem fillsIdentity_inferFrom (hsource : ∀ v, source (m.put "type" v) = source m) :
    FillsIdentity r config (inferFrom r config source) (source m) m := by
  have hcases := inferFrom_cases r config source m
  refine ⟨?_, fun n hne => ⟨?_, inferFrom_of_infers⟩, ?_⟩
  · obtain hsame | hinfers := hcases
    · rw [hsame]
      exact .refl m
    · exact hinfers.fills
  · rintro rfl
    exact hcases.resolve_left hne
  · obtain hsame | hinfers := hcases
    · rw [hsame]
      exact iff_of_true hsame fun hretypes => hretypes.1 rfl
    · rw [inferFrom_eq_self_iff, ← not_exists, hinfers.exists_iff hsource]

end Identity

/-- The repairs that fill gaps keep the order of keys and everything that is not blank, and fill them once: defaults
leave no field that is required and missing, and an identity is made of the type and a slug. -/
theorem fills_gaps (path : String) (r : Registry) (config : Config) (m : Mapping) :
    (m.Fills (fillDefaults r config m) ∧ (∀ key ∈ m.keys, (fillDefaults r config m).get? key = m.get? key) ∧
      fillDefaults r config (fillDefaults r config m) = fillDefaults r config m ∧
      ∀ e, r.entryOf? config m = some e → ∀ i ∈ r.validate config (fillDefaults r config m), i.message ≠ "Required") ∧
    (m.Fills (titleFromPath path r config m) ∧
      titleFromPath path r config (titleFromPath path r config m) = titleFromPath path r config m) ∧
    FillsIdentity r config (idFromTitle r config) (m.text? "title") m ∧
    FillsIdentity r config (idFromPath path r config) (some (FilePath.stem (FilePath.ofText path))) m := by
  have htitle : ∀ v, text? (m.put "type" v) "title" = m.text? "title" := fun v => by
    rw [text?, text?, Dictionary.get?_put, if_neg (by decide)]
  refine ⟨⟨fills_fillDefaults r config m, fun key hkey => get?_fillDefaults hkey, fillDefaults_fillDefaults r config m,
    fun e he i hi => message_fillDefaults he hi⟩, ⟨fills_titleFromPath path r config m,
    titleFromPath_titleFromPath path r config m⟩, ?_, ?_⟩
  · rw [idFromTitle_eq]
    exact fillsIdentity_inferFrom htitle
  · rw [idFromPath_eq]
    exact fillsIdentity_inferFrom fun _ => rfl

/-- A plan with a title gets its defaults, and an identity from the title or from the name of the file. -/
theorem fills_gaps_plan :
    let m : Mapping := [("type", .str "plan"), ("title", .str "Big Launch")]
    let path := "notes/Q3 Roadmap.md"
    (Registry.standard.entryOf? .default m).isSome = true ∧
    fillDefaults .standard .default m =
      m ++ [("id", .str ""), ("status", .str "draft"), ("projects", .list []), ("tags", .list [])] ∧
    (∀ i ∈ Registry.standard.validate .default (fillDefaults .standard .default m), i.message ≠ "Required") ∧
    Infers .standard .default (some "Big Launch") m (m ++ [("id", .str "plan-big-launch")]) ∧
    idFromTitle .standard .default (idFromTitle .standard .default m) = idFromTitle .standard .default m ∧
    Infers .standard .default (some "Q3 Roadmap") m (m ++ [("id", .str "plan-q3-roadmap")]) ∧
    titleFromPath path .standard .default m = m := by
  intro m path
  have hentry : (Registry.standard.entryOf? .default m).isSome = true := by decide +kernel
  obtain ⟨e, he⟩ := Option.isSome_iff_exists.1 hentry
  obtain ⟨⟨-, -, -, hrequired⟩, -, htitle, hpath⟩ := fills_gaps path .standard .default m
  have hfilled : fillDefaults .standard .default m =
      m ++ [("id", .str ""), ("status", .str "draft"), ("projects", .list []), ("tags", .list [])] := by decide +kernel
  have hfromTitle : idFromTitle .standard .default m = m ++ [("id", .str "plan-big-launch")] := by decide +kernel
  have hfromPath : idFromPath path .standard .default m = m ++ [("id", .str "plan-q3-roadmap")] := by decide +kernel
  have hkept : ¬ Retypes .standard .default m (idFromTitle .standard .default m) := by
    rintro ⟨-, f, -, hf, hid, -⟩
    have hidField : (Registry.standard.entryOf? .default m).all (·.idField ≠ "type") = true := by decide +kernel
    rw [hf] at hidField
    exact of_decide_eq_true hidField hid
  have hstem : FilePath.stem (FilePath.ofText path) = "Q3 Roadmap" := by decide +kernel
  have hlonger : ∀ entry : String × Value, m ++ [entry] ≠ m := fun entry => by simp
  have hname : m.text? "title" = some "Big Launch" := by decide
  have hsame : titleFromPath path .standard .default m = m := by decide +kernel
  rw [hname] at htitle
  rw [hstem] at hpath
  exact ⟨hentry, hfilled, hrequired e he, (htitle.infers _ (hlonger _)).1 hfromTitle, htitle.twice.2 hkept,
    (hpath.infers _ (hlonger _)).1 hfromPath, hsame⟩

/-- A type of which nothing is known but its name. -/
def bareType (type : String) : Schema where
  typeName := type
  fields := [.literal "type" type ""]
  description := ""
  names_nodup := by simp
  type_literal := ⟨_, List.mem_cons_self, rfl, rfl⟩

/-- A blank type that is the identity of its notes: the type that is inferred from the title has identities of its own,
and the second run infers one. -/
theorem idFromTitle_blank_type :
    let r := (Registry.empty.put ⟨bareType " ", "type", [], ["type"]⟩).put ⟨bareType " -x", "id", [], ["type"]⟩
    let m : Mapping := [("type", .str " "), ("title", .str "x")]
    let once := idFromTitle r .default m
    once = [("type", .str " -x"), ("title", .str "x")] ∧
      idFromTitle r .default once = [("type", .str " -x"), ("title", .str "x"), ("id", .str " -x-x")] ∧
      idFromTitle r .default once ≠ once := by
  decide +kernel

end Repair

end NoteVault
