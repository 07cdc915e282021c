import NoteVault.Proofs.Repair.Filling
import NoteVault.Proofs.Schema.Conformance
import NoteVault.Proofs.Schema.Field
import NoteVault.Scaffold

/-!
New notes: which keys they have and in which order, what stands under each of them, and what such a note can be told
of. Beside the fields that are overridden only a default that its own field does not take is told of.
-/
namespace NoteVault

namespace SchemaEntry

/-- The keys of front matter are those of the fields that are not optional and those of the overrides, in the order of
the type; an override wins, and every other value is what the type gives to its field. -/
structure Shapes (e : SchemaEntry) (overrides m : Mapping) : Prop where
  keys : m.keys =
    (Text.firstOccurrences e.keyOrder).filter (fun key => key ∈ e.schema.neededNames ∨ key ∈ overrides.keys) ++
      e.schema.neededNames.filter (· ∉ e.keyOrder) ++
      overrides.keys.filter (fun key => key ∉ e.schema.neededNames ∧ key ∉ e.keyOrder)
  overridden : ∀ key ∈ overrides.keys, m.get? key = overrides.get? key
  filled : ∀ f ∈ e.schema.fields, f.optional = false → f.name ∉ overrides.keys →
    ∃ v, f.Offers v ∧ m.get? f.name = some v

/-- What a new note can be told: an error of a field is about an override, or about a default that its own field does
not take. -/
structure CanTell (e : SchemaEntry) (overrides : Mapping) (i : Issue) : Prop where
  known : i.code ≠ .unknownType
  present : i.message ≠ "Required"
  field : i.code = .schemaInvalid ∨ i.code = .tagsNotArray →
    ∃ f ∈ e.schema.fields, i.path = [f.name] ∧ (f.name ∈ overrides.keys ∨ ∃ v, f.Offers v ∧ ¬ f.type.Takes v)
  keys : i.code = .unknownKey → ∃ keys, i = .keysUnknown keys ∧ ∀ key ∈ keys, key ∈ overrides.keys

section
variable (e : SchemaEntry) {overrides : Mapping} (hkeys : overrides.keys.Nodup)
include hkeys

theorem get?_scaffold (key : String) :
    (e.scaffold overrides).get? key = (overrides.get? key).or (e.schema.defaults.get? key) := by
  rw [scaffold, Mapping.get?_sortBy]
  exact Dictionary.get?_foldl_put hkeys _ key

theorem keys_scaffold : (e.scaffold overrides).keys =
    (Text.firstOccurrences e.keyOrder).filter (fun key => key ∈ e.schema.neededNames ∨ key ∈ overrides.keys) ++
      e.schema.neededNames.filter (· ∉ e.keyOrder) ++
      overrides.keys.filter (fun key => key ∉ e.schema.neededNames ∧ key ∉ e.keyOrder) := by
  have hoverlaid := Dictionary.keys_foldl_put hkeys e.schema.defaults
  rw [Schema.keys_defaults] at hoverlaid
  rw [scaffold, Mapping.keys_sortBy, hoverlaid, List.filter_append, List.filter_filter, List.append_assoc]
  refine congrArg₂ _ (List.filter_congr fun key _ => ?_) (congrArg _ (List.filter_congr fun key _ => ?_))
  · simp only [List.mem_append, List.mem_filter, decide_eq_true_eq, decide_eq_decide]
    tauto
  · rw [← Bool.decide_and, decide_eq_decide, and_comm]

theorem mem_keys_scaffold {key : String} (h : key ∈ (e.scaffold overrides).keys) :
    key ∈ e.schema.neededNames ∨ key ∈ overrides.keys := by
  rw [e.keys_scaffold hkeys] at h
  simp only [List.mem_append, List.mem_filter, decide_eq_true_eq] at h
  tauto

theorem get?_scaffold_needed {f : Field} (hf : f ∈ e.schema.fields) (hoptional : f.optional = false)
    (hkey : f.name ∉ overrides.keys) : (e.scaffold overrides).get? f.name = some f.defaultValue := by
  rw [e.get?_scaffold hkeys, Dictionary.get?_eq_none_iff.2 hkey, Option.none_or, e.schema.get?_defaults hf hoptional]

theorem shapes_scaffold : e.Shapes overrides (e.scaffold overrides) where
  keys := e.keys_scaffold hkeys
  overridden key hkey := by
    obtain ⟨v, hv⟩ := Dictionary.mem_keys_iff.1 hkey
    rw [e.get?_scaffold hkeys, hv, Option.some_or]
  filled f hf hoptional hkey := ⟨_, Field.offers_iff.2 rfl, e.get?_scaffold_needed hkeys hf hoptional hkey⟩

/-- A field that is neither needed nor overridden is missing. -/
theorem get?_scaffold_optional {f : Field} (hf : f ∈ e.schema.fields) (hoptional : f.optional = true)
    (hkey : f.name ∉ overrides.keys) : (e.scaffold overrides).get? f.name = none := by
  have hneeded : f.name ∉ e.schema.defaults.keys := by
    rw [Schema.keys_defaults, e.schema.mem_neededNames hf, hoptional]
    decide
  rw [e.get?_scaffold hkeys, Dictionary.get?_eq_none_iff.2 hkey, Dictionary.get?_eq_none_iff.2 hneeded, Option.none_or]

/-- A new note declares its type, unless the field of the type is optional. -/
theorem get?_type_scaffold (htype : "type" ∉ overrides.keys) {f : Field} (hf : f ∈ e.schema.fields)
    (hname : f.name = "type") :
    (e.scaffold overrides).get? "type" = if f.optional = true then none else some (.str e.type) := by
  have hdefault : f.defaultValue = .str e.type := by
    rw [Field.defaultValue, e.schema.type_eq_literal hf hname]
    rfl
  rw [← hname] at htype ⊢
  split
  next hoptional => exact e.get?_scaffold_optional hkeys hf hoptional htype
  next hneeded =>
    rw [e.get?_scaffold_needed hkeys hf (Bool.eq_false_iff.2 hneeded) htype, hdefault]

/-- A field is told of for what overrides it, or for a default that it does not take. -/
theorem overridden_or_misfit {f : Field} (hf : f ∈ e.schema.fields) {i : Issue}
    (hi : f.issue? (e.scaffold overrides) = some i) :
    f.name ∈ overrides.keys ∨ ∃ v, f.Offers v ∧ ¬ f.type.Takes v := by
  by_cases hkey : f.name ∈ overrides.keys
  · exact .inl hkey
  refine .inr ⟨_, Field.offers_iff.2 rfl, fun hfits => ?_⟩
  unfold Field.issue? at hi
  cases hoptional : f.optional with
  | true =>
    rw [e.get?_scaffold_optional hkeys hf hoptional hkey] at hi
    simp [Field.required, hoptional] at hi
  | false =>
    rw [e.get?_scaffold_needed hkeys hf hoptional hkey] at hi
    have hnone : f.valueIssue? f.defaultValue = none :=
      Field.valueIssue?_eq_none_iff.2 ((FieldType.check_eq_none_iff f.type).2 hfits)
    cases hnone.symm.trans hi

end

end SchemaEntry

namespace Registry

variable {r : Registry} {type : String} {e : SchemaEntry} {overrides : Mapping}

theorem scaffold_of_entry (he : r.entry? type = some e) : r.scaffold type overrides =
    ((Note.stringify (e.scaffold overrides) e.referenceFields).mapError .write).map ("---\n" ++ · ++ "\n---\n") := by
  rw [scaffold, require, he]
  change ((Note.stringify (e.scaffold overrides) e.referenceFields).mapError ScaffoldError.write).bind _ = _
  cases Note.stringify (e.scaffold overrides) e.referenceFields <;> rfl

theorem scaffold_of_not_mem (h : type ∉ r.types) : r.scaffold type overrides = .error (.unknownType ⟨type⟩) := by
  have hentry : r.entry? type = none :=
    List.find?_eq_none.2 fun e he htype => h (List.mem_map.2 ⟨e, he, beq_iff_eq.1 htype⟩)
  rw [scaffold, require, hentry]
  rfl

section
variable (hkeys : overrides.keys.Nodup) (htype : "type" ∉ overrides.keys)
include hkeys htype

/-- A new note declares no type but its own. -/
theorem get?_type_of_declaredType? {declared : String} (h : (e.scaffold overrides).declaredType? = some declared) :
    declared = e.type ∧ (e.scaffold overrides).get? "type" = some (.str e.type) := by
  obtain ⟨f, hf, hname, -⟩ := e.schema.type_literal
  have hget := (Mapping.declaredType?_eq_some_iff.1 h).1
  have hscaffold := e.get?_type_scaffold hkeys htype hf hname
  split at hscaffold
  · cases hscaffold.symm.trans hget
  · cases hscaffold.symm.trans hget
    exact ⟨rfl, hscaffold⟩

theorem entryOf?_scaffold (he : r.entry? type = some e) {f : SchemaEntry}
    (hf : r.entryOf? .default (e.scaffold overrides) = some f) :
    f = e ∧ (e.scaffold overrides).put "type" (.str e.type) = e.scaffold overrides := by
  obtain ⟨declared, hdeclared, hentry⟩ := entryOf?_eq_some_iff.1 hf
  obtain ⟨rfl, hget⟩ := get?_type_of_declaredType? hkeys htype hdeclared
  have hsame : r.entry? e.type = some f := hentry
  rw [entry?_type he, he] at hsame
  exact ⟨(Option.some.inj hsame).symm, Dictionary.put_eq_self hget⟩

theorem canTell_scaffold (he : r.entry? type = some e) {i : Issue}
    (hi : i ∈ r.validate .default (e.scaffold overrides)) :
    e.CanTell overrides i := by
  have htells := tells_of_mem_validate hi
  have hreason := htells.reason
  -- whatever is told for an entry is told for `e`: the note declares that type or none
  refine ⟨fun hcode => ?_, fun hmessage => ?_, fun hcode => ?_, fun hcode => ?_⟩
  · rw [hcode] at hreason
    obtain ⟨declared, hdeclared, hnone⟩ := hreason
    obtain ⟨rfl, -⟩ := get?_type_of_declaredType? hkeys htype hdeclared
    have hregistered : r.entry? e.type = some e := entry?_type he ▸ he
    exact Option.some_ne_none e (hregistered.symm.trans hnone)
  · obtain ⟨e', he', f, hf, hrequired, hnone⟩ := htells.required hmessage
    obtain ⟨rfl, -⟩ := entryOf?_scaffold hkeys htype he he'
    have hoptional : f.optional = false := (by simpa [Field.required] using hrequired : _ ∧ _).1
    rw [e'.get?_scaffold hkeys, Option.or_eq_none_iff, e'.schema.get?_defaults hf hoptional] at hnone
    cases hnone.2
  · obtain ⟨e', he', f, hf, hissue⟩ : ∃ e', r.entryOf? .default (e.scaffold overrides) = some e' ∧
        ∃ f ∈ e'.schema.fields, f.issue? ((e.scaffold overrides).put "type" (.str e'.type)) = some i := by
      obtain hcode | hcode := hcode <;> rw [hcode] at hreason <;> exact hreason
    obtain ⟨rfl, hsame⟩ := entryOf?_scaffold hkeys htype he he'
    rw [hsame] at hissue
    exact ⟨f, hf, (Field.isTold_of_issue? hissue).path, e'.overridden_or_misfit hkeys hf hissue⟩
  · rw [hcode] at hreason
    obtain ⟨e', he', rfl⟩ := hreason
    obtain ⟨rfl, -⟩ := entryOf?_scaffold hkeys htype he he'
    refine ⟨_, rfl, fun key hkey => ?_⟩
    obtain ⟨hthere, hunknown⟩ := (e'.schema.mem_unknownKeys _).1 hkey
    refine (e'.mem_keys_scaffold hkeys hthere).resolve_left fun hneeded => hunknown ?_
    obtain ⟨f, hf, hname⟩ := List.mem_map.1 hneeded
    exact List.mem_map.2 ⟨f, List.mem_of_mem_filter hf, hname⟩

/-- A new note lacks a type where its type has no name, or where the field of the type is optional. -/
theorem declaredType?_scaffold_eq_none_iff : (e.scaffold overrides).declaredType? = none ↔
    e.type = "" ∨ ∃ f ∈ e.schema.fields, f.name = "type" ∧ f.optional = true := by
  obtain ⟨f, hf, hname, -⟩ := e.schema.type_literal
  have hget := e.get?_type_scaffold hkeys htype hf hname
  have hoptional : (∃ g ∈ e.schema.fields, g.name = "type" ∧ g.optional = true) ↔ f.optional = true := by
    constructor
    · rintro ⟨g, hg, hname', hoptional⟩
      rwa [e.schema.eq_of_name_eq hg hf (hname'.trans hname.symm)] at hoptional
    · exact fun hoptional => ⟨f, hf, hname, hoptional⟩
  rw [hoptional, Mapping.declaredType?, Mapping.text?, hget]
  cases f.optional <;> simp

end

/-- A new note has the shape of its type, and can be told only of its overrides and of defaults that do not fit. It
lacks a type exactly where the type has no name, or where the field of the type is declared optional; then nothing else
is told of it. Issues that cannot be worded show a long integer of the type. A type that is not registered has no new
notes. -/
theorem scaffold_shapes (r : Registry) (type : String) (overrides : Mapping) (hkeys : overrides.keys.Nodup)
    (htype : "type" ∉ overrides.keys) :
    (type ∉ r.types → r.scaffold type overrides = .error (.unknownType ⟨type⟩)) ∧
    ∀ e, r.entry? type = some e → let m := e.scaffold overrides
      r.scaffold type overrides =
        ((Note.stringify m e.referenceFields).mapError .write).map ("---\n" ++ · ++ "\n---\n") ∧
      e.Shapes overrides m ∧ (∀ i ∈ r.validate .default m, e.CanTell overrides i) ∧
      ((∃ i ∈ r.validate .default m, i.code = .missingType) ↔
        type = "" ∨ ∃ f ∈ e.schema.fields, f.name = "type" ∧ f.optional = true) ∧
      ((∃ f ∈ e.schema.fields, f.name = "type" ∧ f.optional = true) → r.validate .default m = [.noType]) ∧
      (Value.entriesHaveLongInteger m = false → r.isLongAt .default m = true →
        ∃ f ∈ e.schema.fields, ∃ v, m.get? f.name = some v ∧ f.type.ShowsLong v) := by
  refine ⟨scaffold_of_not_mem, fun e he => ?_⟩
  have hnone := declaredType?_scaffold_eq_none_iff (e := e) hkeys htype
  rw [entry?_type he] at hnone
  have hbare : (e.scaffold overrides).declaredType? = none → r.validate .default (e.scaffold overrides) = [.noType] :=
    fun hdeclared => by rw [validate, hdeclared]
  refine ⟨scaffold_of_entry he, e.shapes_scaffold hkeys, fun i hi => canTell_scaffold hkeys htype he hi, ?_,
    fun hoptional => hbare (hnone.2 (.inr hoptional)), fun hshort hlong => ?_⟩
  · rw [← hnone]
    constructor
    · rintro ⟨i, hi, hcode⟩
      have hreason := (tells_of_mem_validate hi).reason
      rwa [hcode] at hreason
    · intro hdeclared
      exact ⟨.noType, by rw [hbare hdeclared]; exact List.mem_singleton_self _, rfl⟩
  · obtain ⟨e', he', f, hf, hshows⟩ := (isLongAt_iff r .default hshort).1 hlong
    obtain ⟨rfl, -⟩ := entryOf?_scaffold hkeys htype he he'
    exact ⟨f, hf, hshows⟩

/-- A task with an empty title and a key that no task has: its identity and its title are too short. -/
theorem scaffold_shapes_task :
    let overrides : Mapping := [("zeta", .int 1), ("title", .str "")]
    let m : Mapping := [("type", .str "task"), ("id", .str ""), ("title", .str ""), ("status", .str "todo"),
      ("projects", .list []), ("tags", .list []), ("zeta", .int 1)]
    overrides.keys.Nodup ∧ "type" ∉ overrides.keys ∧ "recipe" ∉ Registry.standard.types ∧
    Registry.standard.scaffold "recipe" overrides = .error (.unknownType ⟨"recipe"⟩) ∧
    ∃ e, Registry.standard.entry? "task" = some e ∧ e.Shapes overrides m ∧
      (Registry.standard.validate .default m).map (·.path) = [["id"], ["title"], []] ∧
      (∀ i ∈ Registry.standard.validate .default m, e.CanTell overrides i) ∧
      ¬ ∃ f ∈ e.schema.fields, f.name = "type" ∧ f.optional = true := by
  intro overrides m
  have hkeys : overrides.keys.Nodup := by decide
  have htype : "type" ∉ overrides.keys := by decide
  have hnone : "recipe" ∉ Registry.standard.types := by decide +kernel
  have hpaths : (Registry.standard.validate .default m).map (·.path) = [["id"], ["title"], []] := by decide +kernel
  have hentry : (Registry.standard.entry? "task").any (fun e => e.scaffold overrides = m) = true := by decide +kernel
  obtain ⟨e, he, hscaffold⟩ := (Option.any_eq_true _ _).1 hentry
  have hm := of_decide_eq_true hscaffold
  obtain ⟨-, hknown⟩ := scaffold_shapes .standard "task" overrides hkeys htype
  obtain ⟨-, hshapes, htold, -, hoptional, -⟩ := hknown e he
  rw [hm] at hshapes htold hoptional
  refine ⟨hkeys, htype, hnone, (scaffold_shapes .standard "recipe" overrides hkeys htype).1 hnone, e, he, hshapes,
    hpaths, htold, fun h => ?_⟩
  -- of a note without a type a single thing is told
  rw [hoptional h] at hpaths
  cases hpaths

/-- A type whose own field is declared optional: its new notes have no type, and are told so. -/
theorem scaffold_optional_type :
    let fields : List Field := [⟨"type", .literal (.str "x"), true, none, ""⟩]
    ∃ s e r, Schema.make "x" fields "" = .ok s ∧ empty.register "x" s "id" [] none = .ok (e, r) ∧
      r.scaffold "x" [] = .ok "---\n\n---\n" ∧ r.validate .default (e.scaffold []) = [.noType] := by
  intro fields
  have hregistered : ((Schema.make "x" fields "").toOption.any fun s =>
      (empty.register "x" s "id" [] none).toOption.any fun x =>
        x.2.scaffold "x" [] = .ok "---\n\n---\n" ∧ x.2.validate .default (x.1.scaffold []) = [.noType]) = true := by
    decide +kernel
  obtain ⟨s, hs, hregister⟩ := exists_of_toOption_any hregistered
  obtain ⟨⟨e, r⟩, hr, htold⟩ := exists_of_toOption_any hregister
  exact ⟨s, e, r, hs, hr, of_decide_eq_true htold⟩

end Registry

end NoteVault
