import NoteVault.Number.Limit
import NoteVault.Calendar
import NoteVault.Text.Quoted
import NoteVault.Yaml.Source

/-!
Why a header cannot be read. A fault of the text has a problem and mostly a context, each with its
place; its wording is the text of an issue. A value that cannot be formed is a failure of another kind.
-/
namespace NoteVault.Yaml

/-- What was being read when a problem was met. -/
inductive Context where
  | token | simpleKey | directive | directivePart | aliasName | anchorName | tag | tagPart
  | blockScalar | quotedScalar | doubleQuotedScalar
  | node | blockNode | flowNode | blockCollection | blockMapping | flowSequence | flowMapping
  | firstAnchor (name : String)
  | oneDocument
  | mapping | orderedMap | pairs
  deriving DecidableEq, Repr

def Context.text : Context → String
  | token => "while scanning for the next token"
  | simpleKey => "while scanning a simple key"
  | directive => "while scanning a directive"
  | directivePart => "while parsing a directive"
  | aliasName => "while scanning an alias"
  | anchorName => "while scanning an anchor"
  | tag => "while scanning a tag"
  | tagPart => "while parsing a tag"
  | blockScalar => "while scanning a block scalar"
  | quotedScalar => "while scanning a quoted scalar"
  | doubleQuotedScalar => "while scanning a double-quoted scalar"
  | node => "while parsing a node"
  | blockNode => "while parsing a block node"
  | flowNode => "while parsing a flow node"
  | blockCollection => "while parsing a block collection"
  | blockMapping => "while parsing a block mapping"
  | flowSequence => "while parsing a flow sequence"
  | flowMapping => "while parsing a flow mapping"
  | firstAnchor name => "found duplicate anchor " ++ Text.quoted name ++ "; first occurrence"
  | oneDocument => "expected a single document in the stream"
  | mapping => "while constructing a mapping"
  | orderedMap => "while constructing an ordered map"
  | pairs => "while constructing pairs"

/-- The three kinds of nodes. -/
inductive NodeKind where
  | scalar | sequence | mapping
  deriving DecidableEq, Repr

def NodeKind.text : NodeKind → String
  | scalar => "scalar"
  | sequence => "sequence"
  | mapping => "mapping"

/-- What is wrong; a character that was found instead of another is none at the end of the text. -/
inductive Problem where
  | noToken (found : Option Char)
  | noKeyEnd
  | sequenceEntryHere
  | mappingKeyHere
  | mappingValueHere
  | noNameCharacter (found : Option Char)
  | noDigit (found : Option Char)
  | noDigitOrPoint (found : Option Char)
  | noDigitOrBlank (found : Option Char)
  | noBlank (found : Option Char)
  | noCommentOrBreak (found : Option Char)
  | noExclamation (found : Option Char)
  | noAngleBracket (found : Option Char)
  | noUri (found : Option Char)
  | noUriEscape (found : Option Char)
  | uriNotUtf8 (reason : String)
  | zeroIndentation
  | noIndicators (found : Option Char)
  | noHexDigits (count : Nat) (found : Option Char)
  | unknownEscape (found : Option Char)
  | endOfText
  | documentMark
  | noDocumentStart (found : String)
  | duplicateVersion
  | otherVersion
  | duplicateHandle (handle : String)
  | unknownHandle (handle : String)
  | noContent (found : String)
  | noBlockEnd (found : String)
  | noFlowSequenceEnd (found : String)
  | noFlowMappingEnd (found : String)
  | unknownAlias (name : String)
  | secondAnchor
  | anotherDocument
  | selfContained
  | unknownTag (tag : String)
  | notScalar (found : NodeKind)
  | notSequenceNode (found : NodeKind)
  | notSequence (found : NodeKind)
  | notSingleMapping (found : NodeKind)
  | notSingleItem (count : Nat)
  | notMergeable (found : NodeKind)
  | notMergeableItem (found : NodeKind)
  | base64 (reason : String)
  | base64NotAscii (reason : String)
  deriving DecidableEq, Repr

/-- A character that was met, between quotes; the end of the text stands as a null character. -/
def showFound (c : Option Char) : String := Text.quoted (String.singleton (c.getD '\x00'))

def Problem.text : Problem → String
  | noToken c => "found character " ++ showFound c ++ " that cannot start any token"
  | noKeyEnd => "could not find expected ':'"
  | sequenceEntryHere => "sequence entries are not allowed here"
  | mappingKeyHere => "mapping keys are not allowed here"
  | mappingValueHere => "mapping values are not allowed here"
  | noNameCharacter c => "expected alphabetic or numeric character, but found " ++ showFound c
  | noDigit c => "expected a digit, but found " ++ showFound c
  | noDigitOrPoint c => "expected a digit or '.', but found " ++ showFound c
  | noDigitOrBlank c => "expected a digit or ' ', but found " ++ showFound c
  | noBlank c => "expected ' ', but found " ++ showFound c
  | noCommentOrBreak c => "expected a comment or a line break, but found " ++ showFound c
  | noExclamation c => "expected '!', but found " ++ showFound c
  | noAngleBracket c => "expected '>', but found " ++ showFound c
  | noUri c => "expected URI, but found " ++ showFound c
  | noUriEscape c =>
    "expected URI escape sequence of 2 hexadecimal numbers, but found " ++ showFound c
  | uriNotUtf8 reason => reason
  | zeroIndentation => "expected indentation indicator in the range 1-9, but found 0"
  | noIndicators c => "expected chomping or indentation indicators, but found " ++ showFound c
  | noHexDigits n c =>
    "expected escape sequence of " ++ toString n ++ " hexadecimal numbers, but found " ++ showFound c
  | unknownEscape c => "found unknown escape character " ++ showFound c
  | endOfText => "found unexpected end of stream"
  | documentMark => "found unexpected document separator"
  | noDocumentStart t => "expected '<document start>', but found " ++ Text.quoted t
  | duplicateVersion => "found duplicate YAML directive"
  | otherVersion => "found incompatible YAML document (version 1.* is required)"
  | duplicateHandle h => "duplicate tag handle " ++ Text.quoted h
  | unknownHandle h => "found undefined tag handle " ++ Text.quoted h
  | noContent t => "expected the node content, but found " ++ Text.quoted t
  | noBlockEnd t => "expected <block end>, but found " ++ Text.quoted t
  | noFlowSequenceEnd t => "expected ',' or ']', but got " ++ Text.quoted t
  | noFlowMappingEnd t => "expected ',' or '\x7d', but got " ++ Text.quoted t
  | unknownAlias name => "found undefined alias " ++ Text.quoted name
  | secondAnchor => "second occurrence"
  | anotherDocument => "but found another document"
  | selfContained => "found unconstructable recursive node"
  | unknownTag tag => "could not determine a constructor for the tag " ++ Text.quoted tag
  | notScalar k => "expected a scalar node, but found " ++ k.text
  | notSequenceNode k => "expected a sequence node, but found " ++ k.text
  | notSequence k => "expected a sequence, but found " ++ k.text
  | notSingleMapping k => "expected a mapping of length 1, but found " ++ k.text
  | notSingleItem n => "expected a single mapping item, but found " ++ toString n ++ " items"
  | notMergeable k => "expected a mapping or list of mappings for merging, but found " ++ k.text
  | notMergeableItem k => "expected a mapping for merging, but found " ++ k.text
  | base64 reason => "failed to decode base64 data: " ++ reason
  | base64NotAscii reason => "failed to convert base64 data into ascii: " ++ reason

/-- A problem at its place, in its context. -/
structure Fault where
  context : Option (Context × Option Mark)
  problem : Problem
  mark : Mark
  deriving DecidableEq, Repr

/-- The lines of a fault: context, its place unless it is the place of the problem, problem, place. -/
def Fault.text (source : List Char) (f : Fault) : String :=
  let context := match f.context with
    | none => []
    | some (c, none) => [c.text]
    | some (c, some m) =>
      if m.line = f.mark.line ∧ m.column = f.mark.column then [c.text] else [c.text, m.text source]
  "\n".intercalate (context ++ [f.problem.text, f.mark.text source])

/-- Why a scalar or a node does not stand for a value. -/
inductive ValueError where
  | calendar (e : CalendarError)
  /-- Not a text of an integer in the base. -/
  | integer (base : Nat) (text : String)
  /-- More digits than a decimal integer may have. -/
  | longInteger (digits : Nat)
  /-- A key that is no scalar, with an integer of more digits than can be written. -/
  | longKey
  | float (text : String)
  /-- A character number above the last one; far above when it has no 31 bits. -/
  | codePoint (far : Bool)
  /-- A scalar that should be a mapping. -/
  | scalarPair
  /-- A sequence that should be a mapping. -/
  | sequencePair
  /-- A number without a text. -/
  | noNumber
  | truth (text : String)
  | timestamp (text : String)
  /-- A timestamp that is not written as a scalar. -/
  | timestampNode
  /-- A weight of a number in base sixty that no double can hold. -/
  | overflow
  deriving DecidableEq, Repr

/-- A header is refused for a character, for a fault of its text, or for a value. -/
inductive Error where
  /-- A character that may not stand in a text, and its position. -/
  | character (c : Char) (position : Nat)
  | fault (f : Fault)
  | value (e : ValueError)
  deriving DecidableEq, Repr

/-- The wording of a character that may not stand in a text. -/
def Error.characterText (c : Char) (position : Nat) : String :=
  "unacceptable character #x" ++ String.ofList (Text.hex 4 c.toNat) ++
    ": special characters are not allowed\n  in \"<unicode string>\", position " ++ toString position

/-- The wording of a value that cannot be formed, where it has one. -/
def ValueError.text? : ValueError → Option String
  | calendar e => some e.text
  | integer base text =>
    some ("invalid literal for int() with base " ++ toString base ++ ": " ++ Text.quoted text)
  | longInteger n => some (Number.tooLongToRead n)
  | longKey => some Number.tooLongToWrite
  | float text => some ("could not convert string to float: " ++ Text.quoted text)
  | codePoint false => some "chr() arg not in range(0x110000)"
  | scalarPair => some "not enough values to unpack (expected 2, got 1)"
  | _ => none

end NoteVault.Yaml
