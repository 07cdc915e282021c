import NoteVault.Note
import NoteVault.Validation

/-!
One note as the index knows it: its type and identity, its verdict, and the notes that it names.
-/
namespace NoteVault

/-- What the index keeps of a note. A note without a type has no identity and keeps no front matter. -/
structure IndexedNote where
  path : String
  type : Option String
  id : Option String
  title : Option String
  isValid : Bool
  errors : Nat
  warnings : Nat
  frontMatter : Option Mapping
  issues : List Issue

/-- A note names another one, by its identity, in a field. -/
structure Reference where
  source : String
  target : String
  field : String
  deriving DecidableEq, Repr

/-- Identities that a value names: a text, or the texts of a list; empty ones name nothing. -/
def Value.targets : Value → List String
  | str s => if s = "" then [] else [s]
  | list items => items.filterMap fun
    | str s => if s = "" then none else some s
    | _ => none
  | _ => []

namespace Mapping

/-- The title, if it is a text. -/
def title? (m : Mapping) : Option String :=
  match m.get? "title" with
  | some (.str s) => some s
  | _ => none

/-- The references in some fields, field by field. -/
def references (m : Mapping) (source : String) (fields : List String) : List Reference :=
  fields.flatMap fun field =>
    (((m.get? field).map Value.targets).getD []).map fun target => ⟨source, target, field⟩

end Mapping

namespace IndexedNote

/-- The field of identities where the type is not registered. -/
def defaultIdField : String := "id"

/-- A note with its issues counted. -/
def ofIssues (path : String) (m : Option Mapping) (issues : List Issue) : IndexedNote where
  path := path
  type := none
  id := none
  title := m.bind Mapping.title?
  isValid := m.isSome && (Issue.count issues).1 = 0
  errors := (Issue.count issues).1
  warnings := (Issue.count issues).2
  frontMatter := none
  issues := issues

/-- A note of a type, and its references. -/
def typed (r : Registry) (config : Config) (n : IndexedNote) (declared : String) (m : Mapping) :
    IndexedNote × List Reference :=
  let type := config.resolve declared
  let entry := r.entry? type
  let idField := (entry.map SchemaEntry.idField).getD defaultIdField
  ({ n with type := some type, id := m.text? idField, frontMatter := some m },
    m.references n.path ((entry.map SchemaEntry.referenceFields).getD []))

/-- Front matter as the index knows it. -/
def ofFrontMatter (r : Registry) (config : Config) (path : String) (m : Mapping) (issues : List Issue) :
    IndexedNote × List Reference :=
  let n := ofIssues path (some m) (issues ++ r.validate config m)
  match m.declaredType? with
  | none => (n, [])
  | some declared => typed r config n declared m

/-- A decoded note as the index knows it. -/
def ofNote (r : Registry) (config : Config) (path : String) (note : Note) : IndexedNote × List Reference :=
  match note.data with
  | none => (ofIssues path none note.issues, [])
  | some m => ofFrontMatter r config path m note.issues

end IndexedNote

end NoteVault
