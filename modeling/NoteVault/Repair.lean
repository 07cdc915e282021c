import NoteVault.Note
import NoteVault.Repair.Strategy

/-!
Repair of whole notes: the front matter is read, repaired and written again, and the body stays as it is.
-/
namespace NoteVault

/-- How to repair: whether unknown keys are dropped, and repairs that come before and after the usual ones. -/
structure RepairPlan where
  dropsUnknown : Bool
  before : List Repair
  after : List Repair

/-- A note after a change, and whether there was one. -/
structure Revision where
  content : String
  changed : Bool
  deriving DecidableEq, Repr

namespace RepairPlan

/-- The usual repairs and nothing else. -/
def default : RepairPlan := ⟨false, [], []⟩

/-- Lists first, then the order of keys, which further repairs may disturb. -/
def repairs (p : RepairPlan) (r : Registry) (config : Config) : List Repair :=
  p.before ++ [Repair.listScalars r config, Repair.sortKeys r config] ++
    (if p.dropsUnknown then [Repair.dropUnknown r config] else []) ++
    (if p.after.isEmpty then [] else p.after ++ [Repair.sortKeys r config])

/-- All repairs, one after another. -/
def apply (p : RepairPlan) (r : Registry) (config : Config) : Repair := fun m =>
  (p.repairs r config).foldl (fun m repair => repair m) m

end RepairPlan

namespace Note

/-- A note with other front matter, of which some fields are references. -/
def withFrontMatter (content body : String) (m : Mapping) (references : List String) : Except NoteError Revision := do
  let header ← (stringify m references).mapError .write
  let text := assemble header body
  return ⟨text, text ≠ content⟩

/-- The fields of references of a type. -/
def referencesOf (entry : Option SchemaEntry) : List String := (entry.map SchemaEntry.referenceFields).getD []

/-- Repairs a note; one without readable front matter stays as it is. -/
def repair (p : RepairPlan) (r : Registry) (config : Config) (content : String) : Except NoteError Revision := do
  let note ← (parse content).mapError .read
  match note.data with
  | none => return ⟨content, false⟩
  | some m =>
    let m := p.apply r config m
    withFrontMatter content note.body m (referencesOf (r.entryOf? config m))

/-- Gives a note of one type another type; a note of any other type stays as it is. -/
def migrate (r : Registry) (source target : String) (content : String) : Except NoteError Revision := do
  let note ← (parse content).mapError .read
  match note.data with
  | none => return ⟨content, false⟩
  | some m =>
    if m.get? "type" = some (.str source) then
      withFrontMatter content note.body (m.put "type" (.str target)) (referencesOf (r.entry? target))
    else return ⟨content, false⟩

end Note

end NoteVault
