import NoteVault.Issue

/-!
Issues and counts as plain text.
-/
namespace NoteVault

/-- One issue: its label, the note, the field if there is one, the message, and on a second line the advice. -/
def Issue.text (note : String) (i : Issue) : String :=
  let place := if i.path.isEmpty then "" else " (" ++ ".".intercalate i.path ++ ")"
  "[" ++ i.severity.label ++ "] " ++ note ++ place ++ ": " ++ i.message ++
    (i.advice.map ("\n  → " ++ ·)).getD ""

/-- The issues of some notes, one after another. -/
def Issue.report (issues : List (String × List Issue)) : String :=
  "\n".intercalate (issues.flatMap fun (note, is) => is.map (·.text note))

/-- Counts over all notes of a vault, or the changes of these counts, which may be negative. -/
structure VaultStats where
  total : Int
  valid : Int
  errors : Int
  warnings : Int
  deriving DecidableEq, Repr

/-- A number of things; one of them is in the singular. -/
def counted (n : Int) (thing : String) : String :=
  toString n ++ " " ++ (if n = 1 then thing else thing ++ "s")

/-- The counts in a line. -/
def VaultStats.text (s : VaultStats) : String :=
  ", ".intercalate
    [counted s.total "file", toString s.valid ++ " valid", counted s.errors "error", counted s.warnings "warning"]

example : (VaultStats.mk 12 10 3 1).text = "12 files, 10 valid, 3 errors, 1 warning" := by decide +kernel

end NoteVault
