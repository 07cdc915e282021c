import NoteVault.Number.Reading
import NoteVault.Proofs.Text.Digits

/-!
The numbers that decimal digits stand for, also with zeros around them.
-/
namespace NoteVault.Number

theorem decimalValue_eq (s : List Char) : decimalValue s = Text.valueOf 10 (fun c => c.toNat - 48) s := by
  rw [decimalValue, ofDigits, Text.valueOf, List.foldl_map]
  simp only [Nat.mul_comm]

theorem decimalValue_toDigits (n : Nat) : decimalValue (Nat.toDigits 10 n) = n := by
  rw [decimalValue_eq]
  exact Text.valueOf_toDigits (by decide) (by decide) n

theorem decimalValue_append_zeros (s : List Char) (k : Nat) :
    decimalValue (s ++ List.replicate k '0') = decimalValue s * 10 ^ k := by
  simp only [decimalValue_eq]
  induction k with
  | zero => simp
  | succ k ih =>
    rw [List.replicate_succ', ← List.append_assoc, Text.valueOf_append_single, ih, pow_succ]
    exact Nat.mul_comm _ _ |>.trans (Nat.mul_assoc _ _ _)

theorem decimalValue_zeros_append (s : List Char) (k : Nat) :
    decimalValue (List.replicate k '0' ++ s) = decimalValue s := by
  rw [decimalValue_eq, decimalValue_eq, Text.valueOf_replicate_zero _ rfl]

theorem joinDigits_of_not_mem {p : Char → Bool} {s : List Char} (h : '_' ∉ s) (afterDigit : Bool) :
    joinDigits p afterDigit s = some s := by
  induction s generalizing afterDigit with
  | nil => rfl
  | cons c s ih =>
    rw [List.mem_cons, not_or] at h
    unfold joinDigits
    split
    next heq => cases heq
    next heq => exact absurd (List.cons.inj heq).1.symm h.1
    next heq => exact absurd (List.cons.inj heq).1.symm h.1
    next heq =>
      cases heq
      rw [ih h.2]
      rfl

/-- The text of an exponent, and the exponent. -/
inductive IsExponentText : List Char → Int → Prop
  | none : IsExponentText [] 0
  | plus {ds : List Char} (hne : ds ≠ []) (h : ∀ c ∈ ds, c.isDigit = true) :
    IsExponentText ('e' :: '+' :: ds) (decimalValue ds)
  | minus {ds : List Char} (hne : ds ≠ []) (h : ∀ c ∈ ds, c.isDigit = true) :
    IsExponentText ('e' :: '-' :: ds) (-decimalValue ds)

theorem exponentOf?_text {tail : List Char} {n : Int} (h : IsExponentText tail n) : exponentOf? tail = some n := by
  cases h with
  | none => rfl
  | plus hne h | minus hne h =>
    have hall := List.all_eq_true.2 h
    simp [exponentOf?, signOf, hall, hne]

/-- A point between digits, with an exponent. -/
theorem readDecimal?_text (negative : Bool) {whole part tail : List Char} {n : Int} (hne : whole ≠ [])
    (hwhole : ∀ c ∈ whole, c.isDigit = true) (hpart : ∀ c ∈ part, c.isDigit = true) (htail : IsExponentText tail n) :
    readDecimal? negative (whole ++ '.' :: (part ++ tail)) =
      some (Binary64.ofDecimal negative (decimalValue (whole ++ part)) (n - part.length)) := by
  have hstop : tail.head?.any Char.isDigit = false := by cases htail <;> rfl
  have hrun : (whole ++ '.' :: (part ++ tail)).takeWhile Char.isDigit = whole ∧
      (whole ++ '.' :: (part ++ tail)).dropWhile Char.isDigit = '.' :: (part ++ tail) := by
    rw [List.takeWhile_append_of_pos hwhole, List.dropWhile_append_of_pos hwhole]
    simp
  have hrun' : (part ++ tail).takeWhile Char.isDigit = part ∧ (part ++ tail).dropWhile Char.isDigit = tail := by
    rw [List.takeWhile_append_of_pos hpart, List.dropWhile_append_of_pos hpart]
    cases tail with
    | nil => simp
    | cons c tail =>
      have hc : c.isDigit = false := by simpa using hstop
      simp [hc]
  rw [readDecimal?, hrun.1, hrun.2]
  simp [hrun'.1, hrun'.2, hne, exponentOf?_text htail]

end NoteVault.Number
