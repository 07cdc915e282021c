import NoteVault.Base64
import NoteVault.Value
import NoteVault.Number.Shortest
import NoteVault.Text.Digit
import NoteVault.WikiLink
import NoteVault.Yaml.Form

/-!
What is to be written for a value: scalars with their tags, sequences and mappings. An object that
occurs several times gets an anchor, and its later occurrences are aliases.
-/
namespace NoteVault.Yaml

inductive Content where
  | aliasOf (anchor : Nat)
  | scalar (anchor : Option Nat) (tag : Tag) (wish : Option Style) (text : List Char)
  | sequence (anchor : Option Nat) (items : List Content)
  | mapping (anchor : Option Nat) (tag : Tag) (entries : List (String × Content))

namespace Content

/-- The first characters are those of a date, with digits of any script. -/
def startsWithDate (s : List Char) : Bool := (Text.afterDay? s).isSome

/-- Texts that begin with a date and links stand between double quotes. -/
def wishOf (s : String) : Option Style :=
  if startsWithDate s.toList || WikiLink.isLink s then some .double else none

def ofString (s : String) : Content := scalar none .str (wishOf s) s.toList

/-- Doubles are written with a point, and with words for infinities and not-a-number. -/
def floatLayout : Binary64.Layout :=
  { Binary64.plainLayout with exponentPoint := true, infinityText := ".inf", nanText := ".nan" }

/-- Octets in lines of base64. -/
def ofOctets (octets : List UInt8) : Content :=
  scalar none .binary (some .literal) ((Base64.encodeLines octets).flatMap fun line => line ++ ['\n'])

/-- The objects that occur more than once, in the order in which that shows, and those met so far. An
object is a value that carries its place. -/
structure Census where
  met : List Value
  repeated : List Value

/-- An object that is never given an anchor. -/
def isUnnamed : Value → Bool
  | .tuple [] => true
  | _ => false

mutual

/-- Counts the objects in a value; what is met again is not entered again. -/
def census (c : Census) : Value → Census
  | .list items => censusList c items
  | .tuple items => censusList c items
  | .map entries => censusEntries c entries
  | .shared place v =>
    if isUnnamed v then c
    else if c.met.contains (.shared place v) then
      if c.repeated.contains (.shared place v) then c
      else { c with repeated := c.repeated ++ [.shared place v] }
    else census { c with met := .shared place v :: c.met } v
  | _ => c

def censusList (c : Census) : List Value → Census
  | [] => c
  | v :: rest => censusList (census c v) rest

def censusEntries (c : Census) : List (String × Value) → Census
  | [] => c
  | (_, v) :: rest => censusEntries (census c v) rest

end

/-- Puts an anchor on a content. -/
def withAnchor (n : Nat) : Content → Content
  | aliasOf m => aliasOf m
  | scalar _ tag wish text => scalar (some n) tag wish text
  | sequence _ items => sequence (some n) items
  | mapping _ tag entries => mapping (some n) tag entries

mutual

/-- The content of a value; `written` holds the objects that have been written before. -/
def ofValue (repeated : List Value) (written : List Value) : Value → Content × List Value
  | .null => (scalar none .null none "null".toList, written)
  | .bool b => (scalar none .bool none (if b then "true" else "false").toList, written)
  | .int n => (scalar none .int none (toString n).toList, written)
  | .float x => (scalar none .float none (floatLayout.write x).toList, written)
  | .str s => (ofString s, written)
  | .list items =>
    let (contents, written) := ofList repeated written items
    (sequence none contents, written)
  | .tuple items =>
    let (contents, written) := ofList repeated written items
    (sequence none contents, written)
  | .map entries =>
    let (contents, written) := ofEntries repeated written entries
    (mapping none .map contents, written)
  | .set members =>
    (mapping none .set (members.map fun s => (s, scalar none .null none "null".toList)), written)
  | .bytes octets => (ofOctets octets, written)
  | .date d => (scalar none .timestamp none d.text.toList, written)
  | .datetime t => (scalar none .timestamp none (t.text " ").toList, written)
  | .shared place v =>
    if repeated.contains (.shared place v) && !isUnnamed v then
      let anchor := repeated.idxOf (.shared place v) + 1
      if written.contains (.shared place v) then (aliasOf anchor, written)
      else
        let (content, written) := ofValue repeated (.shared place v :: written) v
        (content.withAnchor anchor, written)
    else ofValue repeated written v

def ofList (repeated : List Value) (written : List Value) : List Value → List Content × List Value
  | [] => ([], written)
  | v :: rest =>
    let (content, written) := ofValue repeated written v
    let (contents, written) := ofList repeated written rest
    (content :: contents, written)

def ofEntries (repeated : List Value) (written : List Value) :
    List (String × Value) → List (String × Content) × List Value
  | [] => ([], written)
  | (k, v) :: rest =>
    let (content, written) := ofValue repeated written v
    let (contents, written) := ofEntries repeated written rest
    ((k, content) :: contents, written)

end

/-- The content of the entries of a mapping. -/
def ofMapping (m : Mapping) : List (String × Content) :=
  (ofEntries (censusEntries ⟨[], []⟩ m).repeated [] m).1

end Content

end NoteVault.Yaml
