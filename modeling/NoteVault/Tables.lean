import NoteVault.Index
import NoteVault.Value.Digits
import NoteVault.Value.Json

/-!
An index as tables that can be queried: notes, references and owners of identities. Texts are ordered by
their code points. A session shows the tables of the last index until it is closed.
-/
namespace NoteVault

/-- A row of the table of notes; front matter is JSON text. -/
structure NoteRow where
  path : String
  type : Option String
  id : Option String
  title : Option String
  isValid : Bool
  errors : Nat
  warnings : Nat
  frontMatter : Option String
  deriving DecidableEq, Repr

structure Tables where
  notes : List NoteRow
  references : List Reference
  owners : List (String × String)
  stats : VaultStats

/-- Counts of an index with those of its references. -/
structure TableSummary where
  stats : VaultStats
  references : Nat
  broken : Nat
  deriving DecidableEq, Repr

namespace NoteRow

def ofNote (n : IndexedNote) : NoteRow :=
  ⟨n.path, n.type, n.id, n.title, n.isValid, n.errors, n.warnings, n.frontMatter.map fun m => (Value.map m).toJson⟩

/-- The type in a distribution of types. -/
def typeLabel (r : NoteRow) : String := r.type.getD "(none)"

end NoteRow

/-- By source, then by target, then by field. -/
def Reference.le (a b : Reference) : Bool :=
  a.source < b.source || (a.source = b.source &&
    (a.target < b.target || (a.target = b.target && Text.le a.field b.field)))

namespace Tables

/-- The tables of an index; all front matter must be fit for writing. -/
def ofIndex (i : VaultIndex) : Except WriteError Tables :=
  if i.notes.values.any fun n => n.frontMatter.any Value.entriesHaveLongInteger then .error .longInteger
  else .ok ⟨i.notes.values.map .ofNote, i.references, i.owners, i.stats⟩

/-- How many notes have each type, the most frequent types first. -/
def typeDistribution (t : Tables) : List (String × Nat) :=
  let groups : Dictionary (List Unit) := t.notes.foldl (fun d r => Dictionary.push d r.typeLabel ()) []
  (groups.map fun (type, rows) => (type, rows.length)).mergeSort fun a b =>
    b.2 < a.2 || (a.2 = b.2 && Text.le a.1 b.1)

/-- References to identities that nobody owns. -/
def brokenReferences (t : Tables) : List Reference :=
  (t.references.filter fun e => !t.owners.any (·.1 = e.target)).mergeSort Reference.le

/-- Notes with errors, those with the most errors first. -/
def invalidNotes (t : Tables) : List NoteRow :=
  (t.notes.filter (!·.isValid)).mergeSort fun a b =>
    b.errors < a.errors || (a.errors = b.errors && Text.le a.path b.path)

def summary (t : Tables) : TableSummary := ⟨t.stats, t.references.length, t.brokenReferences.length⟩

/-- All notes by path. -/
def noteRows (t : Tables) : List NoteRow := t.notes.mergeSort fun a b => Text.le a.path b.path

/-- All references in order. -/
def referenceRows (t : Tables) : List Reference := t.references.mergeSort Reference.le

/-- All owners by identity. -/
def ownerRows (t : Tables) : List (String × String) := t.owners.mergeSort fun a b => Text.le a.1 b.1

end Tables

/-- The tables of the last index, until they are closed. -/
inductive TableSession where
  | opened (tables : Tables)
  | closed

namespace TableSession

def start (i : VaultIndex) : Except WriteError TableSession := (Tables.ofIndex i).map opened

/-- The tables, while the session is open. -/
def tables? : TableSession → Option Tables
  | opened t => some t
  | closed => none

/-- Shows another index; a closed session stays closed. -/
def refresh (s : TableSession) (i : VaultIndex) : Except WriteError TableSession :=
  match s with
  | opened _ => start i
  | closed => .ok closed

/-- The session that this leaves, also where it fails: then there are the counts of the index, and no rows. -/
def after (s : TableSession) (i : VaultIndex) : TableSession :=
  match s with
  | closed => closed
  | opened _ =>
    match Tables.ofIndex i with
    | .ok t => opened t
    | .error _ => opened ⟨[], [], [], i.stats⟩

end TableSession

end NoteVault
