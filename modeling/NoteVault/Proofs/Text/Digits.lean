import Mathlib.Tactic

/-!
Digits of a number in a base: each one stands for a number below the base, and together they stand for
the number itself, also with zeros in front. What digits and letters have in common is tried out on all of ASCII.
-/
namespace NoteVault

/-- A property of the characters below 128, by trying all of them. -/
theorem of_ascii {p : Char → Bool} {c : Char} (hc : c.toNat < 128)
    (h : ∀ n < 128, p (Char.ofNat n) = true) : p c = true := by
  have := h c.toNat hc
  rwa [Char.ofNat_toNat] at this

namespace Text

theorem exists_digit_of_mem_toDigits {b n : Nat} (hb : 1 < b) {c : Char} (h : c ∈ Nat.toDigits b n) :
    ∃ d, d < b ∧ c = Nat.digitChar d := by
  induction n using Nat.strong_induction_on with
  | _ n ih =>
    rw [Nat.toDigits_eq_if hb] at h
    split at h
    next hn => exact ⟨n, hn, List.mem_singleton.1 h⟩
    next hn =>
      obtain h | h := List.mem_append.1 h
      · exact ih (n / b) (Nat.div_lt_self (by omega) hb) h
      · exact ⟨n % b, Nat.mod_lt _ (by omega), List.mem_singleton.1 h⟩

/-- The number that digits stand for, given what each digit stands for. -/
def valueOf (b : Nat) (val : Char → Nat) (s : List Char) : Nat := s.foldl (fun n c => b * n + val c) 0

theorem valueOf_append_single (b : Nat) (val : Char → Nat) (s : List Char) (c : Char) :
    valueOf b val (s ++ [c]) = b * valueOf b val s + val c := by
  simp [valueOf, List.foldl_append]

theorem valueOf_lt {b : Nat} {val : Char → Nat} {s : List Char} (h : ∀ c ∈ s, val c < b) :
    valueOf b val s < b ^ s.length := by
  induction s using List.reverseRecOn with
  | nil => simp [valueOf]
  | append_singleton s c ih =>
    have hs := ih fun d hd => h d (List.mem_append_left _ hd)
    have hc := h c (by simp)
    rw [valueOf_append_single, List.length_append, List.length_singleton, pow_succ]
    calc b * valueOf b val s + val c < b * valueOf b val s + b := by omega
      _ = (valueOf b val s + 1) * b := by ring
      _ ≤ b ^ s.length * b := Nat.mul_le_mul_right b hs

theorem valueOf_toDigits {b : Nat} (hb : 1 < b) {val : Char → Nat}
    (hval : ∀ d, d < b → val (Nat.digitChar d) = d) (n : Nat) : valueOf b val (Nat.toDigits b n) = n := by
  induction n using Nat.strong_induction_on with
  | _ n ih =>
    rw [Nat.toDigits_eq_if hb]
    split
    next hn => simp [valueOf, hval n hn]
    next hn =>
      rw [valueOf_append_single, ih (n / b) (Nat.div_lt_self (by omega) hb),
        hval _ (Nat.mod_lt _ (by omega)), Nat.div_add_mod]

theorem valueOf_replicate_zero {b : Nat} (val : Char → Nat) (hz : val '0' = 0) (k : Nat) (s : List Char) :
    valueOf b val (List.replicate k '0' ++ s) = valueOf b val s := by
  induction k with
  | zero => rfl
  | succ k ih =>
    rw [List.replicate_succ, List.cons_append, valueOf, List.foldl_cons, Nat.mul_zero, hz]
    exact ih

end Text

end NoteVault
