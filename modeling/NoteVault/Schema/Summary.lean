import NoteVault.Registry

/-!
Registered types in summary, for tools that show them.
-/
namespace NoteVault

structure FieldSummary where
  name : String
  kind : FieldKind
  required : Bool
  description : Option String
  literal : Option Value
  values : Option (List Value)
  items : Option FieldKind

structure SchemaSummary where
  type : String
  description : Option String
  idField : String
  referenceFields : List String
  fields : List FieldSummary

/-- A text that says something. -/
def nonEmpty? (s : String) : Option String := if s = "" then none else some s

namespace FieldType

/-- The value of a literal other than null. -/
def literal? : FieldType → Option Value
  | literal .null => none
  | literal v => some v
  | _ => none

def values? : FieldType → Option (List Value)
  | enum values => some values
  | _ => none

def items? : FieldType → Option FieldKind
  | array items => items
  | _ => none

end FieldType

def Field.summary (f : Field) : FieldSummary where
  name := f.name
  kind := f.type.kind
  required := f.required
  description := nonEmpty? f.description
  literal := f.type.literal?
  values := f.type.values?
  items := f.type.items?

def SchemaEntry.summary (e : SchemaEntry) : SchemaSummary where
  type := e.type
  description := nonEmpty? e.schema.description
  idField := e.idField
  referenceFields := e.referenceFields
  fields := e.schema.fields.map Field.summary

/-- The summary of a registered type. -/
def Registry.summary? (r : Registry) (type : String) : Option SchemaSummary :=
  (r.entry? type).map SchemaEntry.summary

end NoteVault
