import NoteVault.Number.Shortest
import NoteVault.Proofs.Number.Reading
import NoteVault.Proofs.Number.Rounding

/-!
The shortest digits of a double are read back. Seventeen digits are enough: a decimal of that length is nearer to
the double than half of a step.
-/
namespace NoteVault

namespace Number

/-- A number lies between the powers of ten that the number of its digits tells. -/
theorem length_toDigits_bounds {n : Nat} (hn : 0 < n) :
    (10 : ℚ) ^ (((Nat.toDigits 10 n).length : ℤ) - 1) ≤ n ∧ (n : ℚ) < 10 ^ ((Nat.toDigits 10 n).length : ℤ) := by
  have hpos : 0 < (Nat.toDigits 10 n).length := List.length_pos_iff.2 Nat.toDigits_ne_nil
  have hiff := fun {k : Nat} (hk : 0 < k) => Nat.length_toDigits_le_iff (b := 10) (n := n) (by decide) hk
  generalize (Nat.toDigits 10 n).length = l at *
  constructor
  · obtain ⟨j, rfl⟩ : ∃ j, l = j + 1 := ⟨l - 1, by omega⟩
    have hlow : 10 ^ j ≤ n := by
      obtain rfl | hj := Nat.eq_zero_or_pos j
      · exact hn
      · exact not_lt.1 fun hlt => absurd ((hiff hj).2 hlt) (by omega)
    rw [Nat.cast_add, Nat.cast_one, add_sub_cancel_right, zpow_natCast]
    exact_mod_cast hlow
  · rw [zpow_natCast]
    exact_mod_cast (hiff hpos).1 le_rfl

end Number

namespace Binary64

open Number

variable {m : Nat} {e : Int}

theorem IsNear.pos {x : ℚ} (h : IsNear m e x) (hm : 0 < m) : 0 < x := by
  have hgap := (gapBelow_bounds m e).2
  have hone : (1 : ℚ) ≤ m := by exact_mod_cast hm
  exact lt_of_lt_of_le (mul_pos (by linarith) (two_zpow_pos e)) h.low

theorem IsNear.bounds {x : ℚ} {negative : Bool} (h : IsNear m e x) (hm : 0 < m)
    (hcanonical : (finite negative m e).IsCanonical) : (2 : ℚ) ^ (-1075 : ℤ) ≤ x ∧ x ≤ 2 ^ (1024 : ℤ) := by
  obtain ⟨hsize, hleast, hgreatest, -⟩ := hcanonical
  have hgap := (gapBelow_bounds m e).2
  have hone : (1 : ℚ) ≤ m := by exact_mod_cast hm
  have hsize : (m : ℚ) + 1 ≤ 2 ^ (53 : ℤ) := by
    have : m + 1 ≤ 2 * leadingBit := hsize
    exact_mod_cast this
  have hpow := two_zpow_pos e
  constructor
  · calc (2 : ℚ) ^ (-1075 : ℤ) = 2 ^ (-1 : ℤ) * 2 ^ minExponent := by
          rw [← zpow_add₀ (by norm_num), show -1 + minExponent = -1075 from rfl]
      _ = 1 / 2 * 2 ^ minExponent := by norm_num
      _ ≤ (m - gapBelow m e) * 2 ^ e :=
        mul_le_mul (by linarith) (zpow_le_zpow_right₀ (by norm_num) hleast) (two_zpow_pos _).le (by linarith)
      _ ≤ x := h.low
  · calc x ≤ (m + 1 / 2) * 2 ^ e := h.high
      _ ≤ 2 ^ (53 : ℤ) * 2 ^ maxExponent :=
        mul_le_mul (by linarith) (zpow_le_zpow_right₀ (by norm_num) hgreatest) hpow.le (two_zpow_pos _).le
      _ = 2 ^ (1024 : ℤ) := by rw [← zpow_add₀ (by norm_num), show 53 + maxExponent = 1024 from rfl]

theorem range_low : (10 : ℚ) ^ (-401 : ℤ) ≤ 2 ^ (-1075 : ℤ) := by
  have h : 2 ^ 1075 ≤ 10 ^ 401 := by decide +kernel
  rw [zpow_neg, zpow_neg]
  refine inv_anti₀ (zpow_pos (by norm_num) _) ?_
  exact_mod_cast h

theorem range_high : (2 : ℚ) ^ (1024 : ℤ) < 10 ^ (400 : ℤ) := by
  have h : 2 ^ 1024 < 10 ^ 400 := by decide +kernel
  exact_mod_cast h

/-- A decimal near a double is read as the double. -/
theorem ofDecimal_eq {negative : Bool} {n : Nat} {exponent : Int} (hm : 0 < m)
    (hcanonical : (finite negative m e).IsCanonical) (h : IsNear m e (n * 10 ^ exponent)) :
    ofDecimal negative n exponent = finite negative m e := by
  have hten : ∀ k : ℤ, (0 : ℚ) < 10 ^ k := fun k => zpow_pos (by norm_num) k
  have hn : 0 < n := by
    refine Nat.pos_of_ne_zero ?_
    rintro rfl
    exact absurd (h.pos hm) (by simp)
  obtain ⟨hlow, hhigh⟩ := h.bounds hm hcanonical
  obtain ⟨hdigits, hdigits'⟩ := length_toDigits_bounds hn
  rw [ofDecimal]
  generalize ((Nat.toDigits 10 n).length : Int) = l at *
  have hsmall : ¬ exponent + l < -400 := fun hlt => by
    refine absurd (lt_of_le_of_lt hlow ?_) (not_lt.2 range_low)
    calc (n : ℚ) * 10 ^ exponent < 10 ^ l * 10 ^ exponent := mul_lt_mul_of_pos_right hdigits' (hten _)
      _ = 10 ^ (l + exponent) := (zpow_add₀ (by norm_num) _ _).symm
      _ ≤ 10 ^ (-401 : ℤ) := zpow_le_zpow_right₀ (by norm_num) (by omega)
  have hlarge : ¬ 400 < exponent + l := fun hlt => by
    refine absurd (le_trans ?_ hhigh) (not_le.2 range_high)
    calc (10 : ℚ) ^ (400 : ℤ) ≤ 10 ^ (l - 1 + exponent) := zpow_le_zpow_right₀ (by norm_num) (by omega)
      _ = 10 ^ (l - 1) * 10 ^ exponent := zpow_add₀ (by norm_num) _ _
      _ ≤ n * 10 ^ exponent := mul_le_mul_of_nonneg_right hdigits (hten _).le
  rw [if_neg (by omega), if_neg hlarge]
  split
  next hexp =>
    lift exponent to ℕ using hexp
    refine ofRatio_eq (Nat.mul_pos hn (Nat.pow_pos (by decide))) Nat.one_pos hcanonical ?_
    simpa [Nat.pow_eq] using h
  next hexp =>
    obtain ⟨k, rfl⟩ : ∃ k : ℕ, exponent = -k := ⟨(-exponent).toNat, by omega⟩
    refine ofRatio_eq hn (Nat.pow_pos (by decide)) hcanonical ?_
    simpa [Nat.pow_eq, div_eq_mul_inv] using h

theorem quadrupled_spec (hm : 0 < m) (e : Int) : ((quadrupled m e).1 : ℚ) = 4 * (m - gapBelow m e) ∧
    ((quadrupled m e).2.2 : ℚ) = 4 * (m + 1 / 2) := by
  unfold quadrupled gapBelow
  split
  · rw [Nat.cast_sub (by omega)]
    push_cast
    constructor <;> ring
  · rw [Nat.cast_sub (by omega)]
    push_cast
    constructor <;> ring

theorem ratio_mul_pow {n d : Nat} (hd : 0 < d) (p : Int) :
    let q := if 0 ≤ p then (n * Nat.pow 10 p.toNat, d) else (n, d * Nat.pow 10 (-p).toNat)
    0 < q.2 ∧ (q.1 : ℚ) / q.2 = n / d * 10 ^ p := by
  intro q
  by_cases hp : 0 ≤ p
  · obtain ⟨k, rfl⟩ := Int.eq_ofNat_of_zero_le hp
    have hq : q = (n * Nat.pow 10 k, d) := if_pos hp
    rw [hq]
    refine ⟨hd, ?_⟩
    simp only [Nat.pow_eq, Nat.cast_mul, Nat.cast_pow, Nat.cast_ofNat, zpow_natCast]
    ring
  · obtain ⟨k, rfl⟩ : ∃ k : ℕ, p = -k := ⟨(-p).toNat, by omega⟩
    have hq : q = (n, d * Nat.pow 10 (- -(k : ℤ)).toNat) := if_neg hp
    rw [hq, neg_neg, Int.toNat_natCast]
    refine ⟨Nat.mul_pos hd (Nat.pow_pos (by decide)), ?_⟩
    simp only [Nat.pow_eq, Nat.cast_mul, Nat.cast_pow, Nat.cast_ofNat, zpow_neg, zpow_natCast]
    rw [div_mul_eq_div_div, div_eq_mul_inv]

/-- The test for a candidate, in terms of numbers. -/
theorem readsBack_iff (hm : 0 < m) (k : Nat) (p : Int) : readsBack m e k p = true ↔ IsNear m e (k * 10 ^ p) := by
  obtain ⟨hlo, hhi⟩ := quadrupled_spec hm e
  obtain ⟨hd, hratio⟩ := scaled_spec Nat.one_pos k (e - 2)
  obtain ⟨hd', hratio'⟩ := ratio_mul_pow hd p (n := (scaled k 1 (e - 2)).1)
  have hpow := two_zpow_pos e
  have hquarter : (2 : ℚ) ^ e = 4 * 2 ^ (e - 2) := by
    rw [show (4 : ℚ) = 2 ^ (2 : ℤ) by norm_num, ← zpow_add₀ (by norm_num)]
    congr 1
    ring
  unfold readsBack
  dsimp only
  revert hd' hratio'
  generalize (if 0 ≤ p then ((scaled k 1 (e - 2)).1 * Nat.pow 10 p.toNat, (scaled k 1 (e - 2)).2)
    else ((scaled k 1 (e - 2)).1, (scaled k 1 (e - 2)).2 * Nat.pow 10 (-p).toNat)) = q
  intro hd' hratio'
  have hpos : (0 : ℚ) < q.2 := by exact_mod_cast hd'
  have hx : (q.1 : ℚ) / q.2 = 4 * (k * 10 ^ p) / 2 ^ e := by
    have hne := (two_zpow_pos (e - 2)).ne'
    rw [hratio', hratio, hquarter]
    field_simp
    simp
  have hle : ∀ a : Nat, (a : ℚ) ≤ 4 * (k * 10 ^ p) / 2 ^ e ↔ a * q.2 ≤ q.1 := fun a => by
    rw [← hx, le_div_iff₀ hpos]
    exact_mod_cast Iff.rfl
  have hge : ∀ a : Nat, 4 * (k * 10 ^ p) / 2 ^ e ≤ (a : ℚ) ↔ q.1 ≤ a * q.2 := fun a => by
    rw [← hx, div_le_iff₀ hpos]
    exact_mod_cast Iff.rfl
  have hlow : (m - gapBelow m e) * 2 ^ e ≤ k * 10 ^ p ↔ (quadrupled m e).1 * q.2 ≤ q.1 := by
    rw [← hle, hlo, le_div_iff₀ hpow]
    constructor <;> intro h <;> linarith
  have hhigh : (k : ℚ) * 10 ^ p ≤ (m + 1 / 2) * 2 ^ e ↔ q.1 ≤ (quadrupled m e).2.2 * q.2 := by
    rw [← hge, hhi, div_le_iff₀ hpow]
    constructor <;> intro h <;> linarith
  have hlow' : (m - gapBelow m e) * 2 ^ e < k * 10 ^ p ↔ (quadrupled m e).1 * q.2 < q.1 := by
    rw [← not_le, ← not_le, ← hge, hlo, div_le_iff₀ hpow, not_iff_not]
    constructor <;> intro h <;> linarith
  have hhigh' : (k : ℚ) * 10 ^ p < (m + 1 / 2) * 2 ^ e ↔ q.1 < (quadrupled m e).2.2 * q.2 := by
    rw [← not_le, ← not_le, ← hle, hhi, le_div_iff₀ hpow, not_iff_not]
    constructor <;> intro h <;> linarith
  split
  next heven =>
    simp only [Bool.and_eq_true, decide_eq_true_eq]
    exact ⟨fun h => ⟨hlow.2 h.1, hhigh.2 h.2, fun hodd => by omega⟩, fun h => ⟨hlow.1 h.low, hhigh.1 h.high⟩⟩
  next hodd =>
    simp only [Bool.and_eq_true, decide_eq_true_eq]
    refine ⟨fun h => ⟨(hlow'.2 h.1).le, (hhigh'.2 h.2).le, fun _ => ⟨hlow'.2 h.1, hhigh'.2 h.2⟩⟩, fun h => ?_⟩
    have := h.odd (by omega)
    exact ⟨hlow'.1 this.1, hhigh'.1 this.2⟩

theorem onGrid_spec (m : Nat) (e p : Int) :
    0 < (onGrid m e p).2 ∧ ((onGrid m e p).1 : ℚ) / (onGrid m e p).2 = m * 2 ^ e / 10 ^ p := by
  obtain ⟨hd, hratio⟩ := scaled_spec Nat.one_pos m (-e)
  rw [Nat.cast_one, div_one, zpow_neg, div_inv_eq_mul] at hratio
  have hpos : (0 : ℚ) < (scaled m 1 (-e)).2 := by exact_mod_cast hd
  unfold onGrid
  dsimp only
  split
  next hp =>
    obtain ⟨k, rfl⟩ := Int.eq_ofNat_of_zero_le hp
    refine ⟨Nat.mul_pos hd (Nat.pow_pos (by decide)), ?_⟩
    simp only [Int.toNat_natCast, Nat.pow_eq, Nat.cast_mul, Nat.cast_pow, Nat.cast_ofNat, zpow_natCast]
    rw [← hratio, div_div]
  next hp =>
    obtain ⟨k, rfl⟩ : ∃ k : ℕ, p = -k := ⟨(-p).toNat, by omega⟩
    refine ⟨hd, ?_⟩
    simp only [neg_neg, Int.toNat_natCast, Nat.pow_eq, Nat.cast_mul, Nat.cast_pow, Nat.cast_ofNat, zpow_neg,
      zpow_natCast, div_inv_eq_mul]
    rw [← hratio, div_mul_eq_mul_div]

/-- A grid whose step is less than the gap holds a point that reads back. -/
theorem exists_bestOnGrid (hm : 0 < m) {p : Int} (hstep : (10 : ℚ) ^ p / 2 < gapBelow m e * 2 ^ e) :
    ∃ k, bestOnGrid m e p = some k := by
  obtain ⟨hd, hratio⟩ := onGrid_spec m e p
  have hten : (0 : ℚ) < 10 ^ p := zpow_pos (by norm_num) p
  have hpos : (0 : ℚ) < (onGrid m e p).2 := by exact_mod_cast hd
  have hgap := (gapBelow_bounds m e).2
  have hpow := two_zpow_pos e
  obtain ⟨-, -, hlow, hhigh⟩ := roundHalfEven_bounds (n := (onGrid m e p).1) hd
  rw [div_eq_div_iff hpos.ne' hten.ne'] at hratio
  unfold bestOnGrid
  dsimp only
  generalize roundHalfEven (onGrid m e p).1 (onGrid m e p).2 = near at *
  generalize (onGrid m e p).1 = n at *
  generalize (onGrid m e p).2 = d at *
  have hlow : (2 * d * near : ℚ) ≤ 2 * n + d := by exact_mod_cast hlow
  have hhigh : (2 * n : ℚ) ≤ 2 * d * near + d := by exact_mod_cast hhigh
  have habove : (near : ℚ) * 10 ^ p ≤ m * 2 ^ e + 10 ^ p / 2 := by
    refine le_of_mul_le_mul_left ?_ hpos
    nlinarith
  have hbelow : (m : ℚ) * 2 ^ e - 10 ^ p / 2 ≤ near * 10 ^ p := by
    refine le_of_mul_le_mul_left ?_ hpos
    nlinarith
  have hnear : IsNear m e (near * 10 ^ p) := ⟨by nlinarith, by nlinarith, fun _ => ⟨by nlinarith, by nlinarith⟩⟩
  exact ⟨near, if_pos ((readsBack_iff hm _ _).2 hnear)⟩

theorem isNear_bestOnGrid (hm : 0 < m) {p : Int} {k : Nat} (h : bestOnGrid m e p = some k) :
    IsNear m e (k * 10 ^ p) := by
  unfold bestOnGrid at h
  dsimp only at h
  generalize roundHalfEven (onGrid m e p).1 (onGrid m e p).2 = near at h
  generalize (if near = (onGrid m e p).1 / (onGrid m e p).2 then near + 1
    else (onGrid m e p).1 / (onGrid m e p).2) = far at h
  split at h
  next hnear =>
    cases h
    exact (readsBack_iff hm _ _).1 hnear
  next =>
    split at h
    next hfar =>
      cases h
      exact (readsBack_iff hm _ _).1 hfar
    next => cases h

theorem isNear_searchGrids (hm : 0 < m) {fuel k : Nat} {p q : Int} (h : searchGrids m e fuel p = some (k, q)) :
    IsNear m e (k * 10 ^ q) := by
  induction fuel generalizing p with
  | zero => cases h
  | succ fuel ih =>
    rw [searchGrids] at h
    split at h
    next hbest =>
      cases h
      exact isNear_bestOnGrid hm hbest
    next => exact ih h

theorem exists_searchGrids {fuel k : Nat} {q : Int} (h : bestOnGrid m e q = some k) {p : Int} (hq : q ≤ p)
    (hfuel : p < q + fuel) : ∃ r, searchGrids m e fuel p = some r := by
  induction fuel generalizing p with
  | zero => omega
  | succ fuel ih =>
    rw [searchGrids]
    split
    · exact ⟨_, rfl⟩
    next hnone =>
      have hne : p ≠ q := by
        rintro rfl
        rw [h] at hnone
        cases hnone
      exact ih (by omega) (by omega)

/-- The decimal point stands behind the leading digit, or farther to the left. -/
theorem decimalPoint_le (hm : 0 < m) (e : Int) : (10 : ℚ) ^ (decimalPoint m e - 1) ≤ m * 2 ^ e := by
  unfold decimalPoint
  split
  next he =>
    obtain ⟨k, rfl⟩ := Int.eq_ofNat_of_zero_le he
    refine (Number.length_toDigits_bounds (Nat.mul_pos hm (Nat.pow_pos (by decide)))).1.trans (le_of_eq ?_)
    simp
  next he =>
    obtain ⟨k, rfl⟩ : ∃ k : ℕ, e = -k := ⟨(-e).toNat, by omega⟩
    have hdiv : m * Nat.pow 10 k / Nat.pow 2 k = m * 5 ^ k := by
      rw [Nat.pow_eq, Nat.pow_eq, show 10 = 5 * 2 from rfl, Nat.mul_pow, ← Nat.mul_assoc,
        Nat.mul_div_cancel _ (by positivity)]
    dsimp only
    rw [neg_neg, Int.toNat_natCast, hdiv]
    have hdigits := (Number.length_toDigits_bounds (n := m * 5 ^ k) (by positivity)).1
    generalize ((Nat.toDigits 10 (m * 5 ^ k)).length : ℤ) = l at *
    have hten : (0 : ℚ) < 10 ^ (k : ℤ) := by positivity
    rw [show l - k - 1 = l - 1 - k by ring, zpow_sub₀ (by norm_num), div_le_iff₀ hten]
    refine hdigits.trans (le_of_eq ?_)
    rw [zpow_neg, zpow_natCast, zpow_natCast, show (10 : ℚ) = 2 * 5 by norm_num, mul_pow]
    push_cast
    field_simp

/-- Seventeen digits are enough. -/
theorem step_lt_gap {negative : Bool} (hm : 0 < m) (hcanonical : (finite negative m e).IsCanonical) :
    (10 : ℚ) ^ (decimalPoint m e - 17) / 2 < gapBelow m e * 2 ^ e := by
  obtain ⟨hsize, -⟩ := hcanonical
  have hleading := decimalPoint_le hm e
  have hpow := two_zpow_pos e
  have hstep : (10 : ℚ) ^ (decimalPoint m e - 1) = 10 ^ (16 : ℤ) * 10 ^ (decimalPoint m e - 17) := by
    rw [← zpow_add₀ (by norm_num)]
    congr 1
    ring
  rw [hstep] at hleading
  generalize (10 : ℚ) ^ (decimalPoint m e - 17) = step at *
  norm_num at hleading
  unfold gapBelow
  split
  next hbit =>
    rw [hbit.1, cast_leadingBit] at hleading
    norm_num at hleading
    linarith
  next =>
    have hsize : (m : ℚ) ≤ 9007199254740992 := by
      have : m ≤ 9007199254740992 := hsize.le
      exact_mod_cast this
    have := mul_le_mul_of_nonneg_right hsize hpow.le
    linarith

/-- The shortest digits are near the double. -/
theorem shortest_spec {negative : Bool} (hm : 0 < m) (hcanonical : (finite negative m e).IsCanonical) :
    (shortest m e).digits ≠ [] ∧ (∀ c ∈ (shortest m e).digits, c.isDigit = true) ∧
      IsNear m e (Number.decimalValue (shortest m e).digits *
        10 ^ ((shortest m e).point - (shortest m e).digits.length)) := by
  obtain ⟨k, hk⟩ := exists_bestOnGrid hm (step_lt_gap hm hcanonical)
  obtain ⟨⟨n, p⟩, hsearch⟩ : ∃ r, searchGrids m e 17 (decimalPoint m e - 1) = some r :=
    exists_searchGrids hk (by omega) (by omega)
  have hnear := isNear_searchGrids hm hsearch
  have hshortest : shortest m e = ⟨((Nat.toDigits 10 n).reverse.dropWhile (· = '0')).reverse,
      p + (Nat.toDigits 10 n).length⟩ := by
    unfold shortest
    dsimp only
    rw [hsearch]
  -- the digits, and the zeros that are taken off their end
  obtain ⟨j, hj⟩ : ∃ j, Nat.toDigits 10 n =
      ((Nat.toDigits 10 n).reverse.dropWhile (· = '0')).reverse ++ List.replicate j '0' := by
    refine ⟨((Nat.toDigits 10 n).reverse.takeWhile (· = '0')).length, ?_⟩
    have hzeros : (Nat.toDigits 10 n).reverse.takeWhile (· = '0') =
        List.replicate ((Nat.toDigits 10 n).reverse.takeWhile (· = '0')).length '0' :=
      List.eq_replicate_of_mem fun c hc =>
        of_decide_eq_true (List.all_eq_true.1 List.all_takeWhile c hc)
    rw [← List.reverse_replicate, ← hzeros, ← List.reverse_append, List.takeWhile_append_dropWhile,
      List.reverse_reverse]
  rw [hshortest]
  dsimp only
  generalize ((Nat.toDigits 10 n).reverse.dropWhile (· = '0')).reverse = ds at *
  have hvalue : (n : ℚ) = Number.decimalValue ds * 10 ^ (j : ℤ) := by
    have := Number.decimalValue_append_zeros ds j
    rw [← hj, Number.decimalValue_toDigits] at this
    rw [zpow_natCast]
    exact_mod_cast this
  refine ⟨?_, fun c hc => ?_, ?_⟩
  · rintro rfl
    rw [hvalue] at hnear
    exact absurd (hnear.pos hm) (by simp [Number.decimalValue, Number.ofDigits])
  · refine Nat.isDigit_of_mem_toDigits (b := 10) (n := n) (by decide) (by decide) ?_
    rw [hj]
    exact List.mem_append_left _ hc
  · rw [hvalue, mul_assoc, ← zpow_add₀ (by norm_num)] at hnear
    convert hnear using 3
    rw [hj, List.length_append, List.length_replicate]
    push_cast
    ring

end Binary64

end NoteVault
