import NoteVault.Yaml.Source

/-!
Tokens of a YAML text. Indentation and simple keys appear as tokens of their own.
-/
namespace NoteVault.Yaml

/-- How a scalar is written. -/
inductive Style where
  | plain | single | double | literal | folded
  deriving DecidableEq, Repr

/-- A tag as it is written: a handle, which may be missing, and what follows it. -/
structure TagText where
  handle : Option String
  suffix : String
  deriving DecidableEq, Repr

inductive Directive where
  | version (major minor : Nat)
  | tag (handle start : String)
  | other (name : String)
  deriving DecidableEq, Repr

inductive TokenKind where
  | streamEnd
  | directive (d : Directive)
  | documentStart
  | documentEnd
  | blockSequenceStart
  | blockMappingStart
  | blockEnd
  | flowSequenceStart
  | flowSequenceEnd
  | flowMappingStart
  | flowMappingEnd
  | flowEntry
  | blockEntry
  | key
  | value
  | aliasName (name : String)
  | anchor (name : String)
  | tag (t : TagText)
  | scalar (text : String) (style : Style)
  deriving DecidableEq, Repr

/-- A token with the places where it begins and ends. -/
structure Token where
  kind : TokenKind
  start : Mark
  stop : Mark
  deriving DecidableEq, Repr

/-- The name of a kind of tokens in messages. -/
def TokenKind.name : TokenKind → String
  | streamEnd => "<stream end>"
  | directive _ => "<directive>"
  | documentStart => "<document start>"
  | documentEnd => "<document end>"
  | blockSequenceStart => "<block sequence start>"
  | blockMappingStart => "<block mapping start>"
  | blockEnd => "<block end>"
  | flowSequenceStart => "["
  | flowSequenceEnd => "]"
  | flowMappingStart => "\x7b"
  | flowMappingEnd => "\x7d"
  | flowEntry => ","
  | blockEntry => "-"
  | key => "?"
  | value => ":"
  | aliasName _ => "<alias>"
  | anchor _ => "<anchor>"
  | tag _ => "<tag>"
  | scalar .. => "<scalar>"

end NoteVault.Yaml
