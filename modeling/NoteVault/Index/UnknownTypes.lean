import NoteVault.Note
import NoteVault.Text.Order
import NoteVault.Validation

/-!
Types that notes declare and nobody has registered, the most frequent ones first.
-/
namespace NoteVault

/-- A declared type and the notes that declare it. -/
structure UnknownTypeUse where
  type : String
  paths : List String
  deriving DecidableEq, Repr

def UnknownTypeUse.count (u : UnknownTypeUse) : Nat := u.paths.length

/-- More notes first, then by the order of code points. -/
def UnknownTypeUse.le (a b : UnknownTypeUse) : Bool :=
  b.count < a.count || (a.count = b.count && Text.le a.type b.type)

namespace Registry

/-- The type that front matter declares, unless what it stands for is registered. -/
def unknownType? (r : Registry) (config : Config) (m : Mapping) : Option String :=
  m.declaredType?.filter fun declared => !r.has (config.resolve declared)

/-- The unknown type of a note. -/
def unknownTypeOf? (r : Registry) (config : Config) (content : String) :
    Except Yaml.ValueError (Option String) := do
  return (← Note.parse content).data.bind (unknownType? r config)

/-- Notes by the unknown types that they declare. -/
def groupTypes (notes : List (String × Option String)) : Dictionary (List String) :=
  notes.foldl (fun d (path, type) =>
    match type with
    | some t => d.push t path
    | none => d) []

/-- The unknown types of notes given by path and content. -/
def unknownTypes (r : Registry) (config : Config) (files : List (String × String)) :
    Except Yaml.ValueError (List UnknownTypeUse) := do
  let notes ← files.mapM fun (path, content) => (unknownTypeOf? r config content).map (path, ·)
  return ((groupTypes notes).map fun (t, paths) => ⟨t, paths⟩).mergeSort UnknownTypeUse.le

end Registry

end NoteVault
