import NoteVault.Issue
import NoteVault.Note.Split
import NoteVault.Value.Digits
import NoteVault.Value.Normal
import NoteVault.Yaml.Node.Value

/-!
Notes with their front matter decoded. A header that cannot be read is an issue of the note, and its
body is then the whole text; a header with a value that cannot be formed is refused.
-/
namespace NoteVault

/-- A decoded note: front matter unless it is missing or faulty, body, issues, and the header's text. -/
structure Note where
  data : Option Mapping
  body : String
  issues : List Issue
  header : String
  deriving DecidableEq

/-- A note cannot be read, or what is known of it cannot be written. -/
inductive NoteError where
  | read (e : Yaml.ValueError)
  | write (e : WriteError)
  deriving DecidableEq, Repr

namespace Issue

def noFrontMatter : Issue := error .missing "No frontmatter found" []

/-- The header cannot be read, for a reason. -/
def unreadable (reason : String) : Issue :=
  error .parseError ("Failed to parse frontmatter: " ++ reason) []

def noClosing : Issue := unreadable "missing closing '---' delimiter"

/-- The header is something other than a mapping. -/
def noMapping (v : Value) : Issue := unreadable ("expected a mapping, got " ++ v.kind)

end Issue

namespace Note

/-- A note without front matter, for a reason. -/
def faulty (content header : String) (issue : Issue) : Note := ⟨none, content, [issue], header⟩

def isValid (n : Note) : Bool := n.data.isSome && !n.issues.any Issue.isError

/-- The front matter that a header's value stands for: none counts as no entries. -/
def mappingOf? : Value → Option Mapping
  | .null => some []
  | .map entries => some entries
  | .shared _ (.map entries) => some entries
  | _ => none

/-- Decodes a note. -/
def parse (content : String) : Except Yaml.ValueError Note :=
  if (opening? content.toList).isNone then .ok (faulty content "" .noFrontMatter)
  else match split content with
    | none => .ok (faulty content "" .noClosing)
    | some (header, body) =>
      match Yaml.read header with
      | .error e =>
        match e with
        | .value v => .error v
        | .fault f => .ok (faulty content header (.unreadable (f.text header.toList)))
        | .character c n => .ok (faulty content header (.unreadable (Yaml.Error.characterText c n)))
      | .ok v =>
        match mappingOf? v with
        | none => .ok (faulty content header (.noMapping v))
        | some entries => .ok ⟨some (Value.normalEntries entries), body, [], header⟩

end Note

end NoteVault
