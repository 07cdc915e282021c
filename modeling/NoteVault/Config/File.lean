import NoteVault.Config
import NoteVault.Folder
import NoteVault.Text.Utf8
import NoteVault.Toml.Document

/-!
Settings files of a vault: the file that is named, or the first of the usual ones that is there.
-/
namespace NoteVault

/-- Why settings cannot be loaded. -/
inductive LoadError where
  | unreadable (place : String) (e : ReadError)
  | malformed (place fault : String)
  | shape (e : ConfigShapeError)
  /-- The octets of the file are no text. -/
  | encoding (e : Utf8.Fault)
  /-- An integer of too many digits. -/
  | longInteger (digits : Nat)
  /-- The path holds a null character, which no path may. -/
  | nullCharacter

/-- The wording of an error; there is none for octets that are no text. -/
def LoadError.text? : LoadError → Option String
  | unreadable place e => some ("Failed to read config " ++ place ++ ": " ++ e.text place)
  | malformed place fault => some ("Failed to parse config " ++ place ++ ": " ++ fault)
  | shape e => some e.text
  | encoding _ => none
  | longInteger n => some (Number.tooLongToRead n)
  | nullCharacter => some "embedded null byte"

/-- The error is one of the settings themselves; the others arise below them. -/
def LoadError.isConfigError : LoadError → Bool
  | encoding _ | longInteger _ | nullCharacter => false
  | _ => true

namespace Config

/-- Names of settings files in a vault, the preferred one first. -/
def fileNames : List String := ["vaultlint.toml", ".vaultlint.toml"]

/-- Settings from the octets of a file. -/
def ofOctets (place : String) (octets : List UInt8) : Except LoadError Config := do
  let text ← (Utf8.decode octets).mapError .encoding
  match Toml.read text with
  | .error (.fault t) => throw (.malformed place t)
  | .error (.longInteger n) => throw (.longInteger n)
  | .ok m => (ofMapping m).mapError .shape

/-- The settings in a file of a folder, which is called `root` in messages. -/
def load (f : Folder) (root : String) (path : FilePath) : Except LoadError Config := do
  let place := FilePath.text (root :: path)
  if place.toList.contains '\x00' then throw .nullCharacter
  let octets ← (f.read path).mapError (.unreadable place)
  ofOctets place octets

/-- The settings file of a vault. -/
def find? (f : Folder) : Option String := fileNames.find? fun name => f.isFile [name]

/-- The settings of a vault: from a file that is named, else from the vault's own, else the default. -/
def loadVault (f : Folder) (root : String) (named : Option FilePath) : Except LoadError Config :=
  match named.or ((find? f).map ([·])) with
  | some path => load f root path
  | none => .ok default

end Config

end NoteVault
