import NoteVault.Text.Utf8
import NoteVault.Yaml.Fault
import NoteVault.Yaml.Token

/-!
Names of anchors and aliases, tags, and directives.
-/
namespace NoteVault.Yaml

/-- A fault at the cursor, in a context that began at a mark. -/
def faultAt {α : Type} (context : Context) (start : Mark) (problem : Problem) (c : Cursor) :
    Except Error α :=
  .error (.fault ⟨some (context, some start), problem, c.mark⟩)

def isAsciiAlnum (c : Char) : Bool := c.isAlpha || c.isDigit

/-- Characters of the names of anchors, handles and directives. -/
def isNameChar (c : Char) : Bool := isAsciiAlnum c || c = '-' || c = '_'

def isHexDigit (c : Char) : Bool := c.isDigit || ('a' ≤ c && c ≤ 'f') || ('A' ≤ c && c ≤ 'F')

/-- The number that hexadecimal digits stand for. -/
def hexValue (ds : List Char) : Nat :=
  ds.foldl (fun n c => 16 * n +
    (if c.isDigit then c.toNat - 48 else if c.isLower then c.toNat - 87 else c.toNat - 55)) 0

/-- Characters that may stand in a tag or in the beginning that a directive gives to tags. -/
def isUriChar (c : Char) : Bool :=
  isAsciiAlnum c || "-;/?:@&=+$,_.!~*'()[]".toList.contains c

/-- Characters that may follow the name of an anchor or an alias. -/
def endsName (o : Option Char) : Bool :=
  endsWord o || o.any ("?:,]\x7d%@\x60".toList.contains ·)

namespace Cursor

/-- The name of an anchor or an alias, behind its sign. -/
def anchorName (context : Context) (c : Cursor) : Except Error (String × Cursor) :=
  let (name, after) := c.next.span isNameChar
  if name.isEmpty then faultAt context c.mark (.noNameCharacter after.peek) after
  else if endsName after.peek then .ok (String.ofList name, after)
  else faultAt context c.mark (.noNameCharacter after.peek) after

/-- Octets written as pairs of hexadecimal digits behind percent signs. -/
def uriOctets (context : Context) (start : Mark) : Nat → Cursor → Except Error (List UInt8 × Cursor)
  | 0, c => .ok ([], c)
  | fuel + 1, c =>
    if c.at? '%' then
      match c.next.peek, c.next.peekAt 1 with
      | some a, some b =>
        if !isHexDigit a then faultAt context start (.noUriEscape (some a)) c.next
        else if !isHexDigit b then faultAt context start (.noUriEscape (some b)) c.next
        else do
          let (octets, after) ← uriOctets context start fuel (c.next.skip 2)
          .ok (UInt8.ofNat (hexValue [a, b]) :: octets, after)
      | some a, none =>
        faultAt context start (.noUriEscape (if isHexDigit a then none else some a)) c.next
      | none, _ => faultAt context start (.noUriEscape none) c.next
    else .ok ([], c)

/-- The characters of a tag; `context` is that of a faulty escape. -/
def uriFrom (context : Context) (start : Mark) : Nat → Cursor → Except Error (List Char × Cursor)
  | 0, c => .ok ([], c)
  | fuel + 1, c =>
    let (run, after) := c.span isUriChar
    if after.at? '%' then do
      let (octets, behind) ← uriOctets context start after.rest.length after
      match Utf8.decode octets with
      | .error e => .error (.fault ⟨some (context, some start), .uriNotUtf8 e.text, after.mark⟩)
      | .ok cs =>
        let (more, last) ← uriFrom context start fuel behind
        .ok (run ++ cs ++ more, last)
    else .ok (run, after)

/-- The characters of a tag, at least one. -/
def uri (context part : Context) (start : Mark) (c : Cursor) : Except Error (String × Cursor) := do
  let (cs, after) ← uriFrom context start (c.rest.length + 1) c
  if after.mark = c.mark then faultAt part start (.noUri c.peek) c
  else .ok (String.ofList cs, after)

/-- A handle of tags: an exclamation mark, or a name between two of them. -/
def handle (context : Context) (start : Mark) (c : Cursor) : Except Error (String × Cursor) :=
  if !c.at? '!' then faultAt context start (.noExclamation c.peek) c
  else if c.next.at? ' ' then .ok ("!", c.next)
  else
    let (name, after) := c.next.span isNameChar
    if after.at? '!' then .ok (String.ofList ('!' :: name ++ ['!']), after.next)
    else faultAt context start (.noExclamation after.peek) after

/-- The text up to a blank or the end of the line holds a second exclamation mark. -/
def hasHandle (c : Cursor) : Bool :=
  (c.next.rest.takeWhile fun x => !endsField (some x)).contains '!'

/-- A tag: verbatim between angle brackets, an exclamation mark alone, or a handle with a suffix. -/
def tag (c : Cursor) : Except Error (TagText × Cursor) := do
  let start := c.mark
  let (t, after) ←
    if c.next.at? '<' then do
      let (suffix, after) ← (c.skip 2).uri .tag .tagPart start
      if after.at? '>' then .ok (⟨none, suffix⟩, after.next)
      else faultAt .tagPart start (.noAngleBracket after.peek) after
    else if endsWord c.next.peek then .ok (⟨none, "!"⟩, c.next)
    else do
      let (handle, behind) ← if c.hasHandle then c.handle .tag start else .ok ("!", c.next)
      let (suffix, after) ← behind.uri .tag .tagPart start
      .ok (⟨some handle, suffix⟩, after)
  if endsField after.peek then .ok (t, after) else faultAt .tag start (.noBlank after.peek) after

/-- The digits of a version. -/
def versionNumber (start : Mark) (c : Cursor) : Except Error (Nat × Cursor) :=
  let (ds, after) := c.span Char.isDigit
  if ds.isEmpty then faultAt .directive start (.noDigit c.peek) c
  else .ok (ds.foldl (fun n d => 10 * n + (d.toNat - 48)) 0, after)

/-- What follows the name of a version directive. -/
def versionValue (start : Mark) (c : Cursor) : Except Error (Directive × Cursor) := do
  let (major, c) ← (c.skipAll ' ').versionNumber start
  if !c.at? '.' then faultAt .directive start (.noDigitOrPoint c.peek) c
  else
    let (minor, c) ← c.next.versionNumber start
    if endsField c.peek then .ok (.version major minor, c)
    else faultAt .directive start (.noDigitOrBlank c.peek) c

/-- What follows the name of a tag directive. -/
def tagValue (start : Mark) (c : Cursor) : Except Error (Directive × Cursor) := do
  let (handle, c) ← (c.skipAll ' ').handle .directive start
  if !c.at? ' ' then faultAt .directive start (.noBlank c.peek) c
  else
    let (text, c) ← (c.skipAll ' ').uri .directive .directivePart start
    if endsField c.peek then .ok (.tag handle text, c)
    else faultAt .directive start (.noBlank c.peek) c

/-- The rest of a line, which may hold blanks and a comment. -/
def ignoredLine (context : Context) (start : Mark) (c : Cursor) : Except Error Cursor :=
  let c := c.skipAll ' '
  let c := if c.at? '#' then c.toLineEnd else c
  if endsLine c.peek then .ok c.lineBreak.2
  else faultAt context start (.noCommentOrBreak c.peek) c

/-- A directive, the mark behind its value, and the cursor behind its line. -/
def directive (c : Cursor) : Except Error (Directive × Mark × Cursor) := do
  let start := c.mark
  let (name, after) := c.next.span isNameChar
  if name.isEmpty || !endsField after.peek then
    faultAt .directive start (.noNameCharacter after.peek) after
  else
    let name := String.ofList name
    let (d, after, stop) ←
      if name = "YAML" then (after.versionValue start).map fun (d, c) => (d, c, c.mark)
      else if name = "TAG" then (after.tagValue start).map fun (d, c) => (d, c, c.mark)
      else .ok (.other name, after.toLineEnd, after.mark)
    let behind ← after.ignoredLine .directive start
    .ok (d, stop, behind)

end Cursor

end NoteVault.Yaml
