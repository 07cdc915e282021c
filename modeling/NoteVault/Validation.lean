import NoteVault.Config
import NoteVault.Issue
import NoteVault.Registry

/-!
What is wrong with the front matter of one note, measured against the registered type that it declares.
An unknown type is only a warning: notes of other kinds are tolerated.
-/
namespace NoteVault

namespace Issue

def noType : Issue :=
  { error .missingType "Frontmatter missing required \"type\" field" [] with
    suggestion := some "Add a \"type\" field to frontmatter" }

/-- A declared type stands for another one. -/
def typeMapped (declared canonical : String) : Issue :=
  { warning .mappedType ("Type \"" ++ declared ++ "\" is mapped to \"" ++ canonical ++ "\"") ["type"] with
    suggestion := some ("Consider migrating every \"" ++ declared ++ "\" document to type \"" ++ canonical ++ "\"") }

def typeUnknown (type : String) : Issue :=
  { warning .unknownType ("Unknown frontmatter type: \"" ++ type ++ "\"") [] with
    suggestion := some ("Register a schema for type \"" ++ type ++ "\"") }

def fieldRequired (name : String) : Issue := error .schemaInvalid "Required" [name]

def fieldMisfit (name : String) (problem : FieldProblem) : Issue := error .schemaInvalid problem.text [name]

/-- The tags are a text instead of a list. -/
def tagsText (tags : String) : Issue :=
  { error .tagsNotArray ("tags must be a list, got the string " ++ Text.quoted tags) ["tags"] with
    suggestion := some "Run autofix to convert tags to a list" }

def keysUnknown (keys : List String) : Issue :=
  { error .unknownKey ("Unknown key(s): " ++ ", ".intercalate keys) [] with
    suggestion := some ("Remove unknown keys: " ++ ", ".intercalate keys) }

/-- The summary is older than the last edit. -/
def summaryStale (summarisedAt updated : String) : Issue :=
  { warning .staleSummary ("Summary not updated since last edit (summarisedAt: " ++ summarisedAt ++ ", updated: " ++
      updated ++ ")") ["summarisedAt"] with
    suggestion := some "Regenerate the summary to reflect recent changes" }

end Issue

namespace Mapping

/-- The text of a key, unless it is empty. -/
def text? (m : Mapping) (key : String) : Option String :=
  match m.get? key with
  | some (.str s) => if s = "" then none else some s
  | _ => none

/-- The type that front matter declares. -/
def declaredType? (m : Mapping) : Option String := text? m "type"

/-- The warning of a summary that is older than the last edit. -/
def staleSummary? (m : Mapping) : Option Issue := do
  let updated ← text? m "updated"
  let summarisedAt ← text? m "summarisedAt"
  if summarisedAt < updated then some (.summaryStale summarisedAt updated) else none

end Mapping

/-- What is wrong with a field's value. -/
def Field.valueIssue? (f : Field) (v : Value) : Option Issue :=
  match f.name = "tags" && f.isArray, v with
  | true, .str s => some (.tagsText s)
  | _, _ => (f.check v).map (.fieldMisfit f.name)

/-- What is wrong with a field, which may be missing. -/
def Field.issue? (f : Field) (m : Mapping) : Option Issue :=
  match m.get? f.name with
  | none => if f.required then some (.fieldRequired f.name) else none
  | some v => f.valueIssue? v

namespace Schema

/-- Keys that no field has. -/
def unknownKeys (s : Schema) (m : Mapping) : List String := m.keys.filter (!s.has ·)

/-- Fields in their order, then the keys that the type does not know. -/
def issues (s : Schema) (m : Mapping) : List Issue :=
  s.fields.filterMap (·.issue? m) ++
    match s.unknownKeys m with
    | [] => []
    | keys => [.keysUnknown keys]

/-- Some field has a problem whose wording shows a value that cannot be written. -/
def isLongAt (s : Schema) (m : Mapping) : Bool :=
  s.fields.any fun f => ((m.get? f.name).bind f.check).any FieldProblem.isLong

/-- The issues of front matter; a summary is judged only where there are none. -/
def judge (s : Schema) (m : Mapping) : List Issue :=
  match s.issues m with
  | [] => m.staleSummary?.toList
  | issues => issues

end Schema

namespace Registry

/-- The issues of front matter. -/
def validate (r : Registry) (config : Config) (m : Mapping) : List Issue :=
  match m.declaredType? with
  | none => [.noType]
  | some declared =>
    let canonical := config.resolve declared
    (if canonical ≠ declared && config.warnOnMappedTypes then [.typeMapped declared canonical] else []) ++
      match r.schema? canonical with
      | none => [.typeUnknown canonical]
      | some s => s.judge (m.put "type" (.str canonical))

/-- The registered type of front matter. -/
def entryOf? (r : Registry) (config : Config) (m : Mapping) : Option SchemaEntry :=
  m.declaredType?.bind fun declared => r.entry? (config.resolve declared)

/-- The issues of front matter cannot be worded, because an integer in one of them is too long. -/
def isLongAt (r : Registry) (config : Config) (m : Mapping) : Bool :=
  (r.entryOf? config m).any fun e => e.schema.isLongAt m

end Registry

end NoteVault
