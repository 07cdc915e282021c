import NoteVault.Proofs.Dictionary
import NoteVault.Proofs.Schema.Field
import NoteVault.Schema.Standard

/-!
A registry after any calls on it: it holds, for each name that was registered since it was last emptied, the last
registration under that name that was accepted, and all that it answers follows from these. A registration that is
refused leaves it as it was.
-/
namespace NoteVault

namespace Schema

theorem firstRepeated_eq_none_iff {seen names : List String} :
    firstRepeated seen names = none ↔ names.Nodup ∧ ∀ name ∈ names, name ∉ seen := by
  refine ⟨nodup_of_firstRepeated, ?_⟩
  induction names generalizing seen with
  | nil => exact fun _ => rfl
  | cons name rest ih =>
    rintro ⟨hnodup, hseen⟩
    obtain ⟨hname, hnodup⟩ := List.nodup_cons.1 hnodup
    obtain ⟨hnew, hseen⟩ := List.forall_mem_cons.1 hseen
    rw [firstRepeated, if_neg hnew]
    refine ih ⟨hnodup, fun other hother => ?_⟩
    rw [List.mem_cons, not_or]
    exact ⟨fun heq => hname (heq ▸ hother), hseen other hother⟩

/-- A field tells the type. -/
def TellsType (typeName : String) (fields : List Field) : Prop :=
  ∃ f ∈ fields, f.name = "type" ∧ f.type = .literal (.str typeName)

instance {typeName : String} {fields : List Field} : Decidable (TellsType typeName fields) :=
  inferInstanceAs (Decidable (∃ f ∈ fields, f.name = "type" ∧ f.type = .literal (.str typeName)))

variable {typeName : String} {fields : List Field} (description : String)

theorem make_eq_ok (hnames : (fields.map Field.name).Nodup) (htype : TellsType typeName fields) :
    make typeName fields description = .ok ⟨typeName, fields, description, hnames, htype⟩ := by
  have hnone : firstRepeated [] (fields.map Field.name) = none :=
    firstRepeated_eq_none_iff.2 ⟨hnames, fun _ _ => List.not_mem_nil⟩
  unfold make
  split
  next name hrepeated =>
    rw [hnone] at hrepeated
    cases hrepeated
  next => exact dif_pos htype

theorem exists_make_eq_error (h : ¬((fields.map Field.name).Nodup ∧ TellsType typeName fields)) :
    ∃ e, make typeName fields description = .error e := by
  unfold make
  split
  next name _ => exact ⟨_, rfl⟩
  next hnone => exact ⟨_, dif_neg fun htype => h ⟨(nodup_of_firstRepeated hnone).1, htype⟩⟩

end Schema

namespace Registry

/-- The entries of a registry by their types. -/
def byType (r : Registry) : Dictionary SchemaEntry := r.entries.map fun e => (e.type, e)

theorem keys_byType (r : Registry) : r.byType.keys = r.types := by
  simp [byType, Dictionary.keys, types, Function.comp_def]

theorem get?_byType (r : Registry) (type : String) : r.byType.get? type = r.entry? type := by
  unfold byType entry?
  induction r.entries with
  | nil => rfl
  | cons e es ih =>
    rw [List.map_cons, Dictionary.get?_cons, List.find?_cons, ih]
    by_cases h : type = e.type
    · simp [h]
    · rw [if_neg h, beq_eq_false_iff_ne.2 (Ne.symm h)]

theorem byType_put (r : Registry) (e : SchemaEntry) : (r.put e).byType = r.byType.put e.type e := by
  simp only [byType, put]
  induction r.entries with
  | nil => rfl
  | cons f es ih =>
    rw [List.map_cons, Dictionary.put, putEntry]
    by_cases h : f.type = e.type
    · simp [h]
    · rw [if_neg h, if_neg (by simpa using h), List.map_cons, ih]

theorem has_eq (r : Registry) (type : String) : r.has type = (r.entry? type).isSome :=
  List.isSome_find?.symm

end Registry

/-- A document type with its fields, and how it is to be registered. -/
structure Registration where
  name : String
  typeName : String
  fields : List Field
  description : String
  idField : String
  referenceFields : List String
  keyOrder : Option (List String)

namespace Registration

/-- Forms the document type and registers it. A refusal leaves the registry that there is at that moment. -/
def enter (q : Registration) : ExceptT SchemaError (StateM Registry) SchemaEntry := do
  let schema ← MonadExcept.ofExcept (Schema.make q.typeName q.fields q.description)
  let (entry, r) ← MonadExcept.ofExcept ((← get).register q.name schema q.idField q.referenceFields q.keyOrder)
  set r
  return entry

/-- The document type can be formed, and it is registered under its own name. -/
structure IsSound (q : Registration) : Prop where
  name : q.typeName = q.name
  fields : (q.fields.map Field.name).Nodup
  type : Schema.TellsType q.typeName q.fields

instance (q : Registration) : Decidable q.IsSound :=
  decidable_of_iff (q.typeName = q.name ∧ (q.fields.map Field.name).Nodup ∧ Schema.TellsType q.typeName q.fields)
    ⟨fun ⟨hname, hfields, htype⟩ => ⟨hname, hfields, htype⟩, fun h => ⟨h.name, h.fields, h.type⟩⟩

/-- What is entered for a registration. -/
def entry (q : Registration) (h : q.IsSound) : SchemaEntry where
  schema := ⟨q.typeName, q.fields, q.description, h.fields, h.type⟩
  idField := q.idField
  referenceFields := q.referenceFields
  keyOrder := q.keyOrder.getD (q.fields.map Field.name)

theorem enter_eq (q : Registration) (r : Registry) : q.enter.run.run r =
    match Schema.make q.typeName q.fields q.description with
    | .error e => (.error e, r)
    | .ok schema =>
      match r.register q.name schema q.idField q.referenceFields q.keyOrder with
      | .error e => (.error e, r)
      | .ok (entry, r') => (.ok entry, r') := by
  -- what follows once it is known whether the registry takes the schema
  have hset : ∀ x : Except SchemaError (SchemaEntry × Registry),
      (do let (entry, r') ← MonadExcept.ofExcept x; set r'; return entry :
        ExceptT SchemaError (StateM Registry) SchemaEntry).run.run r =
      match x with
      | .error e => (.error e, r)
      | .ok (entry, r') => (.ok entry, r') := by
    intro x
    cases x <;> rfl
  unfold enter
  cases Schema.make q.typeName q.fields q.description with
  | error e => rfl
  | ok schema => exact hset (r.register q.name schema q.idField q.referenceFields q.keyOrder)

theorem enter_of_isSound {q : Registration} (h : q.IsSound) (r : Registry) :
    q.enter.run.run r = (.ok (q.entry h), r.put (q.entry h)) := by
  have hregister : r.register q.name ⟨q.typeName, q.fields, q.description, h.fields, h.type⟩ q.idField q.referenceFields
      q.keyOrder = .ok (q.entry h, r.put (q.entry h)) := if_pos h.name
  rw [enter_eq, Schema.make_eq_ok q.description h.fields h.type]
  simp only [hregister]

theorem enter_of_not_isSound {q : Registration} (h : ¬q.IsSound) (r : Registry) :
    ∃ e, q.enter.run.run r = (.error e, r) := by
  rw [enter_eq]
  by_cases hschema : (q.fields.map Field.name).Nodup ∧ Schema.TellsType q.typeName q.fields
  · have hname : q.typeName ≠ q.name := fun hname => h ⟨hname, hschema.1, hschema.2⟩
    have hregister : r.register q.name ⟨q.typeName, q.fields, q.description, hschema.1, hschema.2⟩ q.idField
        q.referenceFields q.keyOrder = .error (.otherType q.typeName q.name) := if_neg hname
    rw [Schema.make_eq_ok q.description hschema.1 hschema.2]
    simp only [hregister]
    exact ⟨_, rfl⟩
  · obtain ⟨e, he⟩ := Schema.exists_make_eq_error q.description hschema
    rw [he]
    exact ⟨e, rfl⟩

/-- An entry is what was given with a registration, and its schema is one of the registered name. -/
structure IsEnteredAs (q : Registration) (e : SchemaEntry) : Prop where
  type : e.type = q.name
  typeName : e.schema.typeName = q.name
  fields : e.schema.fields = q.fields
  description : e.schema.description = q.description
  idField : e.idField = q.idField
  referenceFields : e.referenceFields = q.referenceFields
  /-- Without an order of keys it is that of the fields. -/
  keyOrder : e.keyOrder = q.keyOrder.getD (q.fields.map Field.name)
  names : (q.fields.map Field.name).Nodup
  literal : Schema.TellsType q.name q.fields

theorem isEnteredAs_entry {q : Registration} (h : q.IsSound) : q.IsEnteredAs (q.entry h) :=
  ⟨h.name, h.name, rfl, rfl, rfl, rfl, rfl, h.fields, h.name ▸ h.type⟩

/-- A summary tells what was given with a registration, and describes its fields in their order. -/
structure IsSummarizedBy (q : Registration) (s : SchemaSummary) : Prop where
  type : s.type = q.name
  description : ∀ text, s.description = some text ↔ q.description = text ∧ text ≠ ""
  idField : s.idField = q.idField
  referenceFields : s.referenceFields = q.referenceFields
  fields : List.Forall₂ Field.IsDescribedBy q.fields s.fields

theorem isSummarizedBy_entry (q : Registration) (h : q.IsSound) : q.IsSummarizedBy (q.entry h).summary where
  type := h.name
  description _ := nonEmpty?_eq_some_iff
  idField := rfl
  referenceFields := rfl
  fields := List.forall₂_map_right_iff.2 (List.forall₂_same.2 fun f _ => f.isDescribedBy_summary)

/-- A registration that every registry accepts. -/
abbrev Accepted := { q : Registration // q.IsSound }

/-- The last one of some registrations under a name. -/
def latest (log : List Accepted) (name : String) : Option Accepted := (log.filter (·.1.name = name)).getLast?

end Registration

namespace Standard

/-- The registration of a standard type. -/
def Definition.registration (d : Definition) : Registration where
  name := d.type
  typeName := d.type
  fields := d.allFields
  description := d.description
  idField := "id"
  referenceFields := referenceFields
  keyOrder := some (["type", "id", "title"] ++ d.keys ++ lastKeys)

theorem Definition.isSound_registration {d : Definition} (h : d.IsSound) : d.registration.IsSound :=
  ⟨rfl, h, _, List.mem_append_left _ (List.mem_append_left _ List.mem_cons_self), rfl, rfl⟩

def registrations : List Registration.Accepted :=
  definitions.attach.map fun d => ⟨d.1.registration, Definition.isSound_registration (definitions_sound d.1 d.2)⟩

theorem entries_eq : entries = registrations.map fun q => q.1.entry q.2 := by
  rw [entries, registrations, List.map_map]
  rfl

end Standard

/-- What is done to a registry: a type is registered, all types are taken out, or the standard types are added. -/
inductive RegistryCall where
  | register (q : Registration)
  | clear
  | addStandard

namespace RegistryCall

/-- The registry after a call, which may have been refused. -/
def run (r : Registry) : RegistryCall → Registry
  | register q => (q.enter.run.run r).2
  | clear => .empty
  | addStandard => r.addStandard

/-- The accepted registrations since the registry was last emptied, after a further call. -/
def record (log : List Registration.Accepted) : RegistryCall → List Registration.Accepted
  | register q => if h : q.IsSound then log ++ [⟨q, h⟩] else log
  | clear => []
  | addStandard => log ++ Standard.registrations

/-- The accepted registrations since the registry was last emptied. -/
def accepted (calls : List RegistryCall) : List Registration.Accepted := calls.foldl record []

end RegistryCall

namespace Registry

open Registration (Accepted latest)

/-- A new registry after some calls. -/
def ofCalls (calls : List RegistryCall) : Registry := calls.foldl RegistryCall.run .empty

/-- The registry is what some registrations build up, each in the place of an earlier one under its name. -/
def Records (r : Registry) (log : List Accepted) : Prop :=
  r.byType = Dictionary.ofEntries (log.map fun q => (q.1.name, q.1.entry q.2))

section Records

variable {r : Registry} {log : List Accepted}

theorem Records.put (h : r.Records log) (q : Accepted) : (r.put (q.1.entry q.2)).Records (log ++ [q]) := by
  have htype : (q.1.entry q.2).type = q.1.name := q.2.name
  rw [Records, byType_put, h, htype, List.map_append, List.map_singleton, Dictionary.ofEntries_concat]

theorem Records.foldl_put (h : r.Records log) (qs : List Accepted) :
    (qs.foldl (fun r q => r.put (q.1.entry q.2)) r).Records (log ++ qs) := by
  induction qs generalizing r log with
  | nil => rwa [List.append_nil]
  | cons q qs ih =>
    rw [List.foldl_cons, ← List.singleton_append, ← List.append_assoc]
    exact ih (h.put q)

/-- One call, accepted or refused. -/
theorem Records.run (h : r.Records log) (call : RegistryCall) : (call.run r).Records (call.record log) := by
  cases call with
  | register q =>
    simp only [RegistryCall.run, RegistryCall.record]
    split
    next hsound =>
      rw [Registration.enter_of_isSound hsound]
      exact h.put ⟨q, hsound⟩
    next hunsound =>
      obtain ⟨e, he⟩ := Registration.enter_of_not_isSound hunsound r
      rw [he]
      exact h
  | clear => rfl
  | addStandard =>
    simp only [RegistryCall.run, RegistryCall.record, addStandard]
    rw [Standard.entries_eq, List.foldl_map]
    exact h.foldl_put Standard.registrations

theorem records_ofCalls (calls : List RegistryCall) : (ofCalls calls).Records (RegistryCall.accepted calls) := by
  induction calls using List.reverseRecOn with
  | nil => rfl
  | append_singleton calls call ih =>
    rw [ofCalls, RegistryCall.accepted, List.foldl_append, List.foldl_append]
    exact ih.run call

theorem Records.types_eq (h : r.Records log) : r.types = Text.firstOccurrences (log.map (·.1.name)) := by
  rw [← keys_byType, h, Dictionary.keys_ofEntries, List.map_map]
  rfl

theorem Records.entry?_eq (h : r.Records log) (type : String) :
    r.entry? type = (latest log type).map fun q => q.1.entry q.2 := by
  rw [← get?_byType, h, Dictionary.get?_ofEntries, List.filter_map, List.getLast?_map, Option.map_map]
  rfl

end Records

/-- What a registry answers about a type that was registered. -/
structure Shows (r : Registry) (type : String) (q : Registration) : Prop where
  /-- Every way to ask for the entry or its schema leads to the registration. -/
  entry : ∃ e, q.IsEnteredAs e ∧ e.type = type ∧ r.entry? type = some e ∧ r.require type = .ok e ∧
    r.schema? type = some e.schema
  has : r.has type = true
  summary : ∃ s, r.summary? type = some s ∧ q.IsSummarizedBy s
  /-- A new note gets the fields that are not optional, in their order. -/
  defaults : List.Forall₂ (fun f entry => entry.1 = f.name ∧ f.Offers entry.2) (q.fields.filter (!·.optional))
    (r.defaults type)

/-- What a registry answers about any other type. -/
structure Lacks (r : Registry) (type : String) : Prop where
  entry : r.entry? type = none
  require : r.require type = .error ⟨type⟩
  schema : r.schema? type = none
  has : r.has type = false
  summary : r.summary? type = none
  defaults : r.defaults type = []

theorem shows_of_entry? {r : Registry} {type : String} {q : Registration} (h : q.IsSound) (hname : q.name = type)
    (hentry : r.entry? type = some (q.entry h)) : r.Shows type q where
  entry := ⟨q.entry h, Registration.isEnteredAs_entry h, h.name.trans hname, hentry, by rw [require, hentry],
    by rw [schema?, hentry]; rfl⟩
  has := by rw [has_eq, hentry]; rfl
  summary := ⟨(q.entry h).summary, by rw [summary?, hentry]; rfl, q.isSummarizedBy_entry h⟩
  defaults := by
    rw [defaults, schema?, hentry]
    exact List.forall₂_map_right_iff.2 (List.forall₂_same.2 fun f _ => ⟨rfl, Field.offers_iff.2 rfl⟩)

theorem lacks_of_entry? {r : Registry} {type : String} (h : r.entry? type = none) : r.Lacks type where
  entry := h
  require := by rw [require, h]
  schema := by rw [schema?, h]; rfl
  has := by rw [has_eq, h]; rfl
  summary := by rw [summary?, h]; rfl
  defaults := by rw [defaults, schema?, h]; rfl

/-- All that a registry answers follows from the registrations that it accepted. -/
structure Reflects (r : Registry) (log : List Accepted) : Prop where
  nodup : r.types.Nodup
  /-- Types stand in the order of their first registration. -/
  types : r.types = Text.firstOccurrences (log.map (·.1.name))
  size : r.size = r.types.length
  sorted : r.sortedTypes.Perm r.types ∧ r.sortedTypes.Pairwise (· ≤ ·)
  /-- Of several registrations under a name the last one counts. -/
  known : ∀ type q, latest log type = some q → r.Shows type q.1
  unknown : ∀ type, latest log type = none → r.Lacks type

theorem Records.reflects {r : Registry} {log : List Accepted} (h : r.Records log) : r.Reflects log where
  nodup := r.types_nodup
  types := h.types_eq
  size := (List.length_map _).symm
  sorted := ⟨Text.sorted_perm _, (Text.sorted_pairwise _).imp Text.le_iff.1⟩
  known type q hlatest := by
    have hname : q.1.name = type := of_decide_eq_true (List.mem_filter.1 (List.mem_of_getLast? hlatest)).2
    exact shows_of_entry? q.2 hname (by rw [h.entry?_eq, hlatest]; rfl)
  unknown type hlatest := lacks_of_entry? (by rw [h.entry?_eq, hlatest]; rfl)

/-- After any calls a registry answers what was registered since it was last emptied. A further registration is accepted
if it is sound; else it is refused, also where the schema cannot be formed, and the registry stays as it is. -/
theorem ofCalls_reflects (calls : List RegistryCall) :
    (ofCalls calls).Reflects (RegistryCall.accepted calls) ∧ ∀ q : Registration,
      (q.IsSound ∧ ∃ e, q.enter.run.run (ofCalls calls) = (.ok e, ofCalls (calls ++ [.register q])) ∧ q.IsEnteredAs e) ∨
        (¬q.IsSound ∧ ∃ e, q.enter.run.run (ofCalls calls) = (.error e, ofCalls calls)) := by
  refine ⟨(records_ofCalls calls).reflects, fun q => ?_⟩
  by_cases h : q.IsSound
  · refine .inl ⟨h, q.entry h, ?_, Registration.isEnteredAs_entry h⟩
    rw [ofCalls, ofCalls, List.foldl_append, List.foldl_cons, List.foldl_nil, RegistryCall.run,
      Registration.enter_of_isSound h]
  · exact .inr ⟨h, Registration.enter_of_not_isSound h _⟩

/-- A type that is replaced keeps its place, and one under another name is refused. -/
example :
    let note : Registration := ⟨"note", "note", [.literal "type" "note" ""], "", "id", [], none⟩
    let memo : Registration := ⟨"memo", "memo", [.literal "type" "memo" ""], "", "id", [], none⟩
    let r := ofCalls [.addStandard, .clear, .register note, .register memo, .register { memo with name := "idea" },
      .register { note with idField := "key" }]
    r.types = ["note", "memo"] ∧ (r.entry? "note").map (·.idField) = some "key" := by decide +kernel

end Registry

end NoteVault
