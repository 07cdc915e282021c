import NoteVault.Repair

/-!
New notes of a registered type.
-/
namespace NoteVault

/-- Why a new note cannot be made. -/
inductive ScaffoldError where
  | unknownType (e : UnknownType)
  | write (e : WriteError)
  deriving DecidableEq, Repr

namespace SchemaEntry

/-- The front matter of a new note: what the type gives to its fields, overridden by given values, in the
order of the type. -/
def scaffold (e : SchemaEntry) (overrides : Mapping) : Mapping :=
  Mapping.sortBy e.keyOrder (overrides.foldl (fun m (key, v) => m.put key v) e.schema.defaults)

end SchemaEntry

/-- A new note of a type. -/
def Registry.scaffold (r : Registry) (type : String) (overrides : Mapping) : Except ScaffoldError String := do
  let e ← (r.require type).mapError .unknownType
  let header ← (Note.stringify (e.scaffold overrides) e.referenceFields).mapError .write
  return "---\n" ++ header ++ "\n---\n"

end NoteVault
