import NoteVault.Text.Order
import NoteVault.Value.Display

/-!
Settings of a vault: names that stand for document types, patterns of files to leave out, and whether to
warn of mapped types. Settings are read from a table; every problem of the table is reported at once.
-/
namespace NoteVault

structure Config where
  version : String
  /-- From a written type to the type that is meant. -/
  typeMappings : Dictionary String
  excludeGlobs : List String
  warnOnMappedTypes : Bool
  deriving DecidableEq

/-- What is wrong with a table of settings. -/
inductive ConfigProblem where
  | unknownKeys (keys : List String)
  | version
  | typeMappings
  | excludeGlobs
  | validation
  | unknownValidationKeys (keys : List String)
  | warnOnMappedTypes
  deriving DecidableEq, Repr

def ConfigProblem.text : ConfigProblem → String
  | unknownKeys keys => "unknown key(s): " ++ ", ".intercalate keys
  | version => "version: expected string"
  | typeMappings => "type_mappings: expected a table of string -> string"
  | excludeGlobs => "exclude_globs: expected an array of strings"
  | validation => "validation: expected a table"
  | unknownValidationKeys keys => "validation: unknown key(s): " ++ ", ".intercalate keys
  | warnOnMappedTypes => "validation.warn_on_mapped_types: expected boolean"

/-- Why a value is no settings. -/
inductive ConfigShapeError where
  | noTable (kind : String)
  | problems (problems : List ConfigProblem)
  deriving DecidableEq, Repr

def ConfigShapeError.text : ConfigShapeError → String
  | noTable kind => "Invalid config: expected a table, got " ++ kind
  | problems ps => "Invalid config: " ++ "; ".intercalate (ps.map ConfigProblem.text)

namespace Config

/-- No mappings, nothing left out, no warnings of mapped types. -/
def default : Config := ⟨"1.0", [], [], false⟩

/-- The type that a written type stands for. -/
def resolve (c : Config) (type : String) : String := (c.typeMappings.get? type).getD type

def text? (v : Value) : Option String :=
  match v.bare with
  | .str s => some s
  | _ => none

def truth? (v : Value) : Option Bool :=
  match v.bare with
  | .bool b => some b
  | _ => none

def table? (v : Value) : Option Mapping :=
  match v.bare with
  | .map entries => some entries
  | _ => none

def texts? (v : Value) : Option (List String) :=
  match v.bare with
  | .list items => items.mapM text?
  | _ => none

def textTable? (v : Value) : Option (Dictionary String) :=
  match v.bare with
  | .map entries => entries.mapM fun (k, v) => (text? v).map (k, ·)
  | _ => none

/-- Keys of a table that are not among the known ones, in the order of code points. -/
def strangeKeys (known : List String) (m : Mapping) : List String :=
  Text.sorted (m.keys.filter (· ∉ known))

def tableKeys : List String := ["version", "type_mappings", "exclude_globs", "validation"]

def validationKeys : List String := ["warn_on_mapped_types"]

/-- One setting: its default where it is missing, a problem where it has no meaning. -/
def setting (m : Mapping) (key : String) (read : Value → Option α) (default : α) (problem : ConfigProblem) :
    α × List ConfigProblem :=
  match m.get? key with
  | none => (default, [])
  | some v =>
    match read v with
    | some a => (a, [])
    | none => (default, [problem])

/-- The problem of unknown keys, if there are any. -/
def strange (problem : List String → ConfigProblem) (known : List String) (m : Mapping) : List ConfigProblem :=
  match strangeKeys known m with
  | [] => []
  | keys => [problem keys]

/-- The settings of a table. -/
def ofMapping (m : Mapping) : Except ConfigShapeError Config :=
  let (version, p₁) := setting m "version" text? default.version .version
  let (mappings, p₂) := setting m "type_mappings" textTable? [] .typeMappings
  let (globs, p₃) := setting m "exclude_globs" texts? [] .excludeGlobs
  let (validation, p₄) := setting m "validation" table? [] .validation
  let (warn, p₅) := setting validation "warn_on_mapped_types" truth? false .warnOnMappedTypes
  let all := strange .unknownKeys tableKeys m ++ p₁ ++ p₂ ++ p₃ ++ p₄ ++
    strange .unknownValidationKeys validationKeys validation ++ p₅
  if all.isEmpty then .ok ⟨version, mappings, globs, warn⟩ else .error (.problems all)

/-- The settings that a value stands for. -/
def ofValue (v : Value) : Except ConfigShapeError Config :=
  match v.bare with
  | .map entries => ofMapping entries
  | _ => .error (.noTable v.kind)

/-- The settings as a table. -/
def toMapping (c : Config) : Mapping :=
  [("version", .str c.version), ("type_mappings", .map (c.typeMappings.map fun (k, t) => (k, .str t))),
    ("exclude_globs", .list (c.excludeGlobs.map .str)),
    ("validation", .map [("warn_on_mapped_types", .bool c.warnOnMappedTypes)])]

end Config

end NoteVault
