import NoteVault.Folder
import NoteVault.Note.Write
import NoteVault.Text.Slug
import NoteVault.Validation

/-!
Repairs of front matter: functions from a mapping to a mapping that do nothing where they do not apply.
-/
namespace NoteVault

abbrev Repair := Mapping → Mapping

namespace Mapping

/-- Keys in a given order, then all others in their own order. -/
def sortBy (order : List String) (m : Mapping) : Mapping :=
  (Text.firstOccurrences order).filterMap (fun key => (m.get? key).map (key, ·)) ++
    m.filter fun (key, _) => key ∉ order

/-- Keys in the order of code points. -/
def sortAll (m : Mapping) : Mapping := (Text.sorted m.keys).filterMap fun key => (m.get? key).map (key, ·)

/-- The entries whose keys are among the given ones. -/
def restrict (keys : List String) (m : Mapping) : Mapping := m.filter fun (key, _) => key ∈ keys

/-- Gives keys new names, but never a name that is there already. -/
def rename (names : Dictionary String) (m : Mapping) : Mapping :=
  let newName := fun (key : String) =>
    match names.get? key with
    | some name => if m.has name then key else name
    | none => key
  Dictionary.ofEntries (m.map fun (key, v) => (newName key, v))

/-- A text as a list of one item. -/
def listed : Value → Value
  | .str s => .list [.str s]
  | v => v

/-- Null and blank texts are empty, as is a key that is missing. -/
def isBlankAt (m : Mapping) (key : String) : Bool :=
  match m.get? key with
  | none => true
  | some .null => true
  | some (.str s) => Text.isAllBlank s
  | some _ => false

end Mapping

namespace Repair

open Mapping

/-- The fields of a type that hold lists: references, and fields that are arrays. -/
def listFields (entry : Option SchemaEntry) : List String :=
  match entry with
  | none => ["tags"]
  | some e => "tags" :: e.referenceFields ++ (e.schema.fields.filter Field.isArray).map Field.name

/-- Turns texts in some fields into lists, field by field. -/
def listAll (names : List String) (m : Mapping) : Mapping := names.foldl (fun m name => m.adjust name listed) m

/-- Turns texts into lists in the tags, in references and in fields that are arrays. -/
def listScalars (r : Registry) (config : Config) : Repair := fun m => listAll (listFields (r.entryOf? config m)) m

/-- Keys in the order of the type, or of code points where the type is not registered. -/
def sortKeys (r : Registry) (config : Config) : Repair := fun m =>
  match r.entryOf? config m with
  | some e => m.sortBy e.keyOrder
  | none => m.sortAll

/-- Drops the keys that the type does not know. -/
def dropUnknown (r : Registry) (config : Config) : Repair := fun m =>
  match r.entryOf? config m with
  | some e => m.restrict e.schema.fieldNames
  | none => m

/-- Adds what a new document gets for the fields that are missing. -/
def fillDefaults (r : Registry) (config : Config) : Repair := fun m =>
  match r.entryOf? config m with
  | some e => m ++ e.schema.defaults.filter fun (key, _) => !m.has key
  | none => m

/-- Gives front matter without an identity one of its type and a slug. -/
def inferId (r : Registry) (config : Config) (name : String) : Repair := fun m =>
  match r.entryOf? config m with
  | some e =>
    if m.isBlankAt e.idField && Text.slug name ≠ "" then m.put e.idField (.str (e.type ++ "-" ++ Text.slug name))
    else m
  | none => m

/-- Infers the identity from the title. -/
def idFromTitle (r : Registry) (config : Config) : Repair := fun m =>
  match m.get? "title" with
  | some (.str title) => inferId r config title m
  | _ => m

/-- Infers the identity from the name of the file. -/
def idFromPath (path : String) (r : Registry) (config : Config) : Repair :=
  inferId r config (FilePath.stem (FilePath.ofText path))

/-- What stands between words in the name of a file. -/
def isWordBreak (c : Char) : Bool := c = '-' || c = '_' || Text.isBlank c

/-- A name of a file as a title: its words, the first letter in upper case and all others in lower case. -/
def titleOf (name : String) : String :=
  match (" ".intercalate ((Text.runs (!isWordBreak ·) name.toList).map String.ofList)).toList with
  | [] => ""
  | c :: rest => Text.upper (String.singleton c) ++ Text.lower (String.ofList rest)

/-- Gives front matter without a title that of the name of the file. -/
def titleFromPath (path : String) (r : Registry) (config : Config) : Repair := fun m =>
  let title := titleOf (FilePath.stem (FilePath.ofText path))
  if title ≠ "" && (r.entryOf? config m).isSome && m.isBlankAt "title" then m.put "title" (.str title) else m

end Repair

end NoteVault
