/-!
Classes of characters given by ranges of code points.
-/
namespace NoteVault.Text

/-- Ranges of code points, both ends included. -/
abbrev Ranges := List (Nat × Nat)

/-- The character lies in one of the ranges. -/
def Ranges.has (r : Ranges) (c : Char) : Bool :=
  r.any fun range => range.1 ≤ c.toNat && c.toNat ≤ range.2

end NoteVault.Text
