import NoteVault.Number.Limit
import NoteVault.Value

/-!
Values that cannot be written as text, because an integer in them has too many digits.
-/
namespace NoteVault

/-- Why a value cannot be written. -/
inductive WriteError where
  /-- An integer of more digits than can be written. -/
  | longInteger
  deriving DecidableEq, Repr

def WriteError.text : WriteError → String
  | longInteger => Number.tooLongToWrite

namespace Value

mutual

/-- Some integer in the value has too many digits. -/
def hasLongInteger : Value → Bool
  | int n => Nat.pow 10 Number.maxDigits ≤ n.natAbs
  | list items => anyLongInteger items
  | tuple items => anyLongInteger items
  | map entries => entriesHaveLongInteger entries
  | shared _ v => hasLongInteger v
  | _ => false

def anyLongInteger : List Value → Bool
  | [] => false
  | v :: rest => hasLongInteger v || anyLongInteger rest

def entriesHaveLongInteger : List (String × Value) → Bool
  | [] => false
  | (_, v) :: rest => hasLongInteger v || entriesHaveLongInteger rest

end

theorem entriesHaveLongInteger_eq_any (entries : List (String × Value)) :
    entriesHaveLongInteger entries = entries.any (·.2.hasLongInteger) := by
  induction entries with
  | nil => rfl
  | cons e rest ih => rw [entriesHaveLongInteger, ih, List.any_cons]

theorem anyLongInteger_eq_any (items : List Value) : anyLongInteger items = items.any hasLongInteger := by
  induction items with
  | nil => rfl
  | cons v rest ih => rw [anyLongInteger, ih, List.any_cons]

theorem hasLongInteger_zero : (int 0).hasLongInteger = false := by
  rw [hasLongInteger, decide_eq_false_iff_not, Nat.not_le]
  -- the bound is not to be computed
  generalize Number.maxDigits = digits
  exact Nat.pow_pos (by decide)

theorem hasLongInteger_bare (v : Value) : v.bare.hasLongInteger = v.hasLongInteger := by
  induction v using bare.induct with
  | case1 place v ih => rw [bare, ih, hasLongInteger]
  | case2 v h => rw [bare]; exact h

end Value

end NoteVault
