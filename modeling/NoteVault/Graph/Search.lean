import NoteVault.Graph
import NoteVault.Text.Case
import NoteVault.Value.Digits
import NoteVault.Value.Display

/-!
Notes that hold a text in their identity, title, type, status or tags, regardless of case.
-/
namespace NoteVault

namespace Text

/-- A text occurs in another one. -/
def occursIn (part : List Char) : List Char → Bool
  | [] => part.isEmpty
  | c :: rest => part.isPrefixOf (c :: rest) || occursIn part rest

/-- The items of a list up to an end, which counts from the end of the list when it is negative. -/
def upToEnd (items : List α) (stop : Int) : List α :=
  if stop < 0 then items.take (items.length - stop.natAbs) else items.take stop.toNat

end Text

namespace IndexedNote

/-- The status, if it is a text. -/
def status? (n : IndexedNote) : Option String :=
  match n.frontMatter.bind (·.get? "status") with
  | some (.str s) => some s
  | _ => none

/-- The tags of a list, one after another. -/
def tagLine? (n : IndexedNote) : Option String :=
  match n.frontMatter.bind (·.get? "tags") with
  | some (.list items) => some (" ".intercalate (items.map Value.plain))
  | _ => none

/-- The tags hold an integer of too many digits. -/
def hasLongTag (n : IndexedNote) : Bool :=
  match n.frontMatter.bind (·.get? "tags") with
  | some (.list items) => Value.anyLongInteger items
  | _ => false

/-- What a search looks at. -/
def searchTexts (n : IndexedNote) : List String :=
  [n.id.getD "", n.title.getD "", n.type.getD ""] ++ n.status?.toList ++ n.tagLine?.toList

/-- One of the texts holds the query, which is in lower case. -/
def isMatch (n : IndexedNote) (query : String) : Bool :=
  n.searchTexts.any fun s => Text.occursIn query.toList (Text.lower s).toList

end IndexedNote

namespace VaultGraph

/-- The notes of any type or of a given one. -/
def candidates (g : VaultGraph) (type : Option String) : List IndexedNote :=
  g.notes.filter fun n => type.isNone || n.type = type

/-- The candidates that match a query, all of them or up to a limit; their tags must be fit for writing. -/
def search (g : VaultGraph) (query : String) (type : Option String) (limit : Option Int) :
    Except WriteError (List IndexedNote) :=
  if (g.candidates type).any IndexedNote.hasLongTag then .error .longInteger else
  let found := (g.candidates type).filter (·.isMatch (Text.lower query))
  match limit with
  | none => .ok found
  | some stop => .ok (Text.upToEnd found stop)

end VaultGraph

end NoteVault
