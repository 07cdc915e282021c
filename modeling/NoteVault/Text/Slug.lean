import NoteVault.Text.Case

/-!
Slugs: the runs of ASCII letters and digits of a text in lower case, with hyphens between them.
-/
namespace NoteVault.Text

/-- The runs of characters of a class; all other characters only separate them. -/
def runs (p : Char → Bool) (s : List Char) : List (List Char) := (s.splitOnP (!p ·)).filter (· ≠ [])

/-- A character that may stand in a slug. -/
def isSlugChar (c : Char) : Bool := ('a' ≤ c && c ≤ 'z') || ('0' ≤ c && c ≤ '9')

def slug (s : String) : String :=
  "-".intercalate ((runs isSlugChar (lower s).toList).map String.ofList)

example : slug "  Spaces  & Symbols!! " = "spaces-symbols" := by decide +kernel

end NoteVault.Text
