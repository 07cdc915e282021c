import Mathlib.Algebra.Order.Field.Power
import Mathlib.Tactic
import NoteVault.Number.Binary64

/-!
Rounding of ratios to doubles. Mantissas have 53 bits, or the exponent is the least one, and every ratio near
enough to a double is rounded to it.
-/
namespace NoteVault.Binary64

/-- The rounded number is the nearest one; a half goes to an even one. -/
theorem roundHalfEven_eq {n d m : Nat} (hd : 0 < d) (hlow : (2 * m : ℤ) * d - d ≤ 2 * n) (hhigh : 2 * n ≤ 2 * m * d + d)
    (htie : m % 2 = 1 → (2 * m : ℤ) * d - d < 2 * n ∧ 2 * n < 2 * m * d + d) : roundHalfEven n d = m := by
  have hn := Nat.div_add_mod n d
  have hr := Nat.mod_lt n hd
  unfold roundHalfEven
  dsimp only
  generalize n / d = q at *
  generalize n % d = r at *
  obtain h | rfl | h | h : m + 1 ≤ q ∨ q = m ∨ q + 1 = m ∨ q + 2 ≤ m := by omega
  · nlinarith
  · have hdiff : 2 * n = 2 * q * d + 2 * r := by rw [← hn]; ring
    split
    · rfl
    · rw [if_neg (by omega)]
      have heven : q % 2 ≠ 1 := fun hodd => by have := (htie hodd).2; omega
      omega
  · have hdiff : (2 * n : ℤ) = 2 * m * d - 2 * d + 2 * r := by
      rw [← hn, ← h]
      push_cast
      ring
    rw [if_neg (by omega)]
    split
    · exact h
    · have heven : m % 2 ≠ 1 := fun hodd => by have := (htie hodd).1; omega
      omega
  · nlinarith

theorem roundHalfEven_bounds {n d : Nat} (hd : 0 < d) : n / d ≤ roundHalfEven n d ∧ roundHalfEven n d ≤ n / d + 1 ∧
    2 * d * roundHalfEven n d ≤ 2 * n + d ∧ 2 * n ≤ 2 * d * roundHalfEven n d + d := by
  have hn := Nat.div_add_mod n d
  have hr := Nat.mod_lt n hd
  unfold roundHalfEven
  dsimp only
  generalize n / d = q at *
  generalize n % d = r at *
  have hdouble : 2 * d * q = 2 * (d * q) := by ring
  have hnext : 2 * d * (q + 1) = 2 * (d * q) + 2 * d := by ring
  split
  · omega
  · split
    · omega
    · obtain h | h := Nat.mod_two_eq_zero_or_one q
      · rw [h, Nat.add_zero]
        omega
      · rw [h]
        omega

theorem scaled_spec {den : Nat} (hden : 0 < den) (num : Nat) (e : Int) : 0 < (scaled num den e).2 ∧
    ((scaled num den e).1 : ℚ) / (scaled num den e).2 = num / den / 2 ^ e := by
  have hd : (den : ℚ) ≠ 0 := by positivity
  unfold scaled
  split
  next he =>
    lift e to ℕ using he
    refine ⟨Nat.mul_pos hden (Nat.pow_pos (by decide)), ?_⟩
    simp only [Int.toNat_natCast, Nat.pow_eq, Nat.cast_mul, Nat.cast_pow, Nat.cast_ofNat, zpow_natCast]
    rw [div_div]
  next he =>
    obtain ⟨k, rfl⟩ : ∃ k : ℕ, e = -k := ⟨(-e).toNat, by omega⟩
    refine ⟨hden, ?_⟩
    simp only [neg_neg, Int.toNat_natCast, Nat.pow_eq, Nat.cast_mul, Nat.cast_pow, Nat.cast_ofNat, zpow_neg,
      zpow_natCast, div_inv_eq_mul]
    rw [div_mul_eq_mul_div]

/-- A mantissa of 53 bits, or the least exponent. -/
def IsCanonical : Binary64 → Prop
  | finite _ m e => m < 2 * leadingBit ∧ minExponent ≤ e ∧ e ≤ maxExponent ∧ (leadingBit ≤ m ∨ e = minExponent)
  | _ => True

/-- The exponent at which the mantissa of a ratio has 53 bits, or the least one. -/
structure IsExponent (x : ℚ) (e : Int) : Prop where
  least : minExponent ≤ e
  above : x < 2 ^ (53 + e)
  below : 2 ^ (52 + e) ≤ x ∨ e = minExponent

theorem IsExponent.le {x : ℚ} {e f : Int} (he : IsExponent x e) (hf : IsExponent x f) : e ≤ f := by
  obtain h | h := he.below
  · have := (zpow_lt_zpow_iff_right₀ (by norm_num : (1 : ℚ) < 2)).1 (h.trans_lt hf.above)
    omega
  · rw [h]
    exact hf.least

theorem IsExponent.unique {x : ℚ} {e f : Int} (he : IsExponent x e) (hf : IsExponent x f) : e = f :=
  le_antisymm (he.le hf) (hf.le he)

theorem cast_leadingBit : (leadingBit : ℚ) = 2 ^ (52 : ℤ) := by norm_num [leadingBit]

/-- A ratio lies between the powers of two that the lengths of its parts tell. -/
theorem ratio_bounds {num den : Nat} (hnum : 0 < num) (hden : 0 < den) :
    (2 : ℚ) ^ ((num.log2 : ℤ) - den.log2 - 1) < num / den ∧ (num : ℚ) / den < 2 ^ ((num.log2 : ℤ) - den.log2 + 1) := by
  have hn : (2 : ℚ) ^ (num.log2 : ℤ) ≤ num := by exact_mod_cast Nat.log2_self_le hnum.ne'
  have hn' : (num : ℚ) < 2 ^ ((num.log2 : ℤ) + 1) := by exact_mod_cast Nat.lt_log2_self (n := num)
  have hd : (2 : ℚ) ^ (den.log2 : ℤ) ≤ den := by exact_mod_cast Nat.log2_self_le hden.ne'
  have hd' : (den : ℚ) < 2 ^ ((den.log2 : ℤ) + 1) := by exact_mod_cast Nat.lt_log2_self (n := den)
  have hpos : (0 : ℚ) < den := by positivity
  rw [lt_div_iff₀ hpos, div_lt_iff₀ hpos]
  constructor
  · calc (2 : ℚ) ^ ((num.log2 : ℤ) - den.log2 - 1) * den
        < 2 ^ ((num.log2 : ℤ) - den.log2 - 1) * 2 ^ ((den.log2 : ℤ) + 1) := by gcongr
      _ = 2 ^ (num.log2 : ℤ) := by rw [← zpow_add₀ (by norm_num)]; congr 1; ring
      _ ≤ num := hn
  · calc (num : ℚ) < 2 ^ ((num.log2 : ℤ) + 1) := hn'
      _ = 2 ^ ((num.log2 : ℤ) - den.log2 + 1) * 2 ^ (den.log2 : ℤ) := by rw [← zpow_add₀ (by norm_num)]; congr 1; ring
      _ ≤ 2 ^ ((num.log2 : ℤ) - den.log2 + 1) * den := by gcongr

theorem isExponent_exponentOf {num den : Nat} (hnum : 0 < num) (hden : 0 < den) :
    IsExponent (num / den) (exponentOf num den) := by
  obtain ⟨hlow, hhigh⟩ := ratio_bounds hnum hden
  unfold exponentOf
  dsimp only
  set guess : Int := (num.log2 : Int) - den.log2 - 52 with hguess
  obtain ⟨hd, hratio⟩ := scaled_spec hden num guess
  generalize (scaled num den guess).1 = n at *
  generalize (scaled num den guess).2 = d at *
  have hpos : (0 : ℚ) < d := by positivity
  have hside : n < d * leadingBit ↔ (num : ℚ) / den < 2 ^ (52 + guess) := by
    rw [add_comm, zpow_add₀ (by norm_num), ← cast_leadingBit, ← div_lt_iff₀' (by positivity), ← hratio,
      div_lt_iff₀' hpos]
    exact_mod_cast Iff.rfl
  have hexact : ∀ g : Int, (num : ℚ) / den < 2 ^ (53 + g) → (2 : ℚ) ^ (52 + g) ≤ num / den →
      IsExponent (num / den) (max minExponent g) := by
    intro g habove hbelow
    refine ⟨le_max_left _ _, habove.trans_le (zpow_le_zpow_right₀ (by norm_num) (by omega)), ?_⟩
    obtain h | h := max_choice minExponent g
    · exact .inr h
    · rw [h]
      exact .inl hbelow
  split
  next h =>
    refine hexact _ ((hside.1 h).trans_le (le_of_eq (by congr 1; ring))) (le_of_eq_of_le ?_ hlow.le)
    congr 1
    rw [hguess]
    ring
  next h =>
    refine hexact _ (hhigh.trans_le (le_of_eq ?_)) (not_lt.1 fun hlt => h (hside.2 hlt))
    congr 1
    rw [hguess]
    ring

/-- Half a step, in units of the last place; below a power of two the steps are half as wide. -/
def gapBelow (m : Nat) (e : Int) : ℚ := if m = leadingBit ∧ minExponent < e then 1 / 4 else 1 / 2

/-- The number is rounded to `m * 2 ^ e`: no double is nearer, and only an even mantissa may be half a step away. -/
structure IsNear (m : Nat) (e : Int) (x : ℚ) : Prop where
  low : (m - gapBelow m e) * 2 ^ e ≤ x
  high : x ≤ (m + 1 / 2) * 2 ^ e
  odd : m % 2 = 1 → (m - gapBelow m e) * 2 ^ e < x ∧ x < (m + 1 / 2) * 2 ^ e

theorem gapBelow_bounds (m : Nat) (e : Int) : 1 / 4 ≤ gapBelow m e ∧ gapBelow m e ≤ 1 / 2 := by
  unfold gapBelow
  split <;> norm_num

theorem two_zpow_pos (e : Int) : (0 : ℚ) < 2 ^ e := zpow_pos (by norm_num) e

/-- As `roundHalfEven_eq`, for the ratio. -/
theorem roundHalfEven_ratio {n d m : Nat} (hd : 0 < d) {y : ℚ} (hy : (n : ℚ) / d = y) (hlow : (m : ℚ) - 1 / 2 ≤ y)
    (hhigh : y ≤ m + 1 / 2) (htie : m % 2 = 1 → (m : ℚ) - 1 / 2 < y ∧ y < m + 1 / 2) : roundHalfEven n d = m := by
  have hpos : (0 : ℚ) < d := by positivity
  subst hy
  rw [le_div_iff₀ hpos] at hlow
  rw [div_le_iff₀ hpos] at hhigh
  rw [lt_div_iff₀ hpos, div_lt_iff₀ hpos] at htie
  refine roundHalfEven_eq hd ?_ ?_ fun hodd => ⟨?_, ?_⟩
  · have : ((2 * m : ℤ) * d - d : ℚ) ≤ (2 * n : ℤ) := by push_cast; linarith
    exact_mod_cast this
  · have : ((2 * n : ℕ) : ℚ) ≤ (2 * m * d + d : ℕ) := by push_cast; linarith
    exact_mod_cast this
  · have : ((2 * m : ℤ) * d - d : ℚ) < (2 * n : ℤ) := by push_cast; linarith [(htie hodd).1]
    exact_mod_cast this
  · have : ((2 * n : ℕ) : ℚ) < (2 * m * d + d : ℕ) := by push_cast; linarith [(htie hodd).2]
    exact_mod_cast this

/-- The scaled ratio at the exponent of a ratio, rounded. -/
theorem ofRatio_of_isExponent {num den : Nat} {e : Int} (negative : Bool) (hnum : 0 < num) (hden : 0 < den)
    (he : IsExponent (num / den) e) {m : Nat} (hm : roundHalfEven (scaled num den e).1 (scaled num den e).2 = m) :
    ofRatio negative num den =
      if m = 2 * leadingBit then if maxExponent < e + 1 then infinite negative else finite negative leadingBit (e + 1)
      else if maxExponent < e then infinite negative else finite negative m e := by
  rw [ofRatio, if_neg hnum.ne', (isExponent_exponentOf hnum hden).unique he]
  dsimp only
  rw [hm]
  by_cases hcarry : m = 2 * leadingBit
  · rw [if_pos hcarry, if_pos hcarry]
  · rw [if_neg hcarry, if_neg hcarry]

/-- A ratio near a double that has its exponent is rounded to it. -/
theorem ofRatio_eq_of_isExponent {negative : Bool} {num den m : Nat} {e : Int} (hnum : 0 < num) (hden : 0 < den)
    (hcanonical : (finite negative m e).IsCanonical) (h : IsNear m e (num / den)) (he : IsExponent (num / den) e) :
    ofRatio negative num den = finite negative m e := by
  obtain ⟨hm, hleast, hgreatest, -⟩ := hcanonical
  obtain ⟨hlow, hhigh, hodd⟩ := h
  obtain ⟨-, hgap⟩ := gapBelow_bounds m e
  have hpow := two_zpow_pos e
  obtain ⟨hd, hratio⟩ := scaled_spec hden num e
  have hround : roundHalfEven (scaled num den e).1 (scaled num den e).2 = m := by
    refine roundHalfEven_ratio hd hratio ?_ ?_ fun h => ⟨?_, ?_⟩
    · rw [le_div_iff₀ hpow]
      exact le_trans (by gcongr) hlow
    · rwa [div_le_iff₀ hpow]
    · rw [lt_div_iff₀ hpow]
      exact lt_of_le_of_lt (by gcongr) (hodd h).1
    · rw [div_lt_iff₀ hpow]
      exact (hodd h).2
  rw [ofRatio_of_isExponent negative hnum hden he hround, if_neg hm.ne, if_neg (by omega)]

/-- A ratio below a power of two and near it is rounded to it with a carry. -/
theorem ofRatio_eq_of_carry {negative : Bool} {num den : Nat} {e : Int} (hnum : 0 < num) (hden : 0 < den)
    (hleast : minExponent < e) (hgreatest : e ≤ maxExponent) (h : IsNear leadingBit e (num / den))
    (hbelow : (num / den : ℚ) < 2 ^ (52 + e)) : ofRatio negative num den = finite negative leadingBit e := by
  obtain ⟨hlow, -, -⟩ := h
  have hquarter : gapBelow leadingBit e = 1 / 4 := if_pos ⟨rfl, hleast⟩
  have hhalf : (2 : ℚ) ^ e = 2 * 2 ^ (e - 1) := by
    rw [← zpow_one_add₀ (by norm_num)]
    congr 1
    ring
  have hpow := two_zpow_pos (e - 1)
  rw [hquarter, hhalf, cast_leadingBit] at hlow
  rw [zpow_add₀ (by norm_num), hhalf] at hbelow
  have he : IsExponent (num / den) (e - 1) := by
    refine ⟨by omega, ?_, .inl ?_⟩
    · rw [zpow_add₀ (by norm_num)]
      calc (num / den : ℚ) < 2 ^ (52 : ℤ) * (2 * 2 ^ (e - 1)) := hbelow
        _ = 2 ^ (53 : ℤ) * 2 ^ (e - 1) := by norm_num; ring
    · rw [zpow_add₀ (by norm_num)]
      refine le_trans ?_ hlow
      norm_num
      nlinarith
  obtain ⟨hd, hratio⟩ := scaled_spec hden num (e - 1)
  have hround : roundHalfEven (scaled num den (e - 1)).1 (scaled num den (e - 1)).2 = 2 * leadingBit := by
    refine roundHalfEven_ratio hd hratio ?_ ?_ fun h => absurd h (by decide)
    · rw [le_div_iff₀ hpow, Nat.cast_mul, cast_leadingBit]
      refine le_trans (le_of_eq ?_) hlow
      push_cast
      ring
    · rw [div_le_iff₀ hpow, Nat.cast_mul, cast_leadingBit]
      push_cast
      nlinarith
  rw [ofRatio_of_isExponent negative hnum hden he hround, if_pos rfl, sub_add_cancel, if_neg (by omega)]

/-- A ratio near a double is rounded to it. -/
theorem ofRatio_eq {negative : Bool} {num den m : Nat} {e : Int} (hnum : 0 < num) (hden : 0 < den)
    (hcanonical : (finite negative m e).IsCanonical) (h : IsNear m e (num / den)) :
    ofRatio negative num den = finite negative m e := by
  obtain ⟨hm, hleast, hgreatest, hnormal⟩ := hcanonical
  have hpow := two_zpow_pos e
  have hgap := (gapBelow_bounds m e).2
  have hsplit : ∀ k : ℤ, (2 : ℚ) ^ (k + e) = 2 ^ k * 2 ^ e := fun k => zpow_add₀ (by norm_num) k e
  by_cases hbinade : (2 : ℚ) ^ (52 + e) ≤ num / den ∨ e = minExponent
  · have hsize : (m : ℚ) + 1 ≤ 2 ^ (53 : ℤ) := by
      have : m + 1 ≤ 2 * leadingBit := hm
      exact_mod_cast this
    have he : IsExponent (num / den) e := ⟨hleast, by rw [hsplit]; nlinarith [h.high], hbinade⟩
    exact ofRatio_eq_of_isExponent hnum hden ⟨hm, hleast, hgreatest, hnormal⟩ h he
  · rw [not_or, not_le] at hbinade
    obtain ⟨hbelow, hne⟩ := hbinade
    obtain rfl : m = leadingBit := by
      refine le_antisymm ?_ (hnormal.resolve_right hne)
      by_contra hlt
      have : (leadingBit : ℚ) + 1 ≤ m := by exact_mod_cast not_le.1 hlt
      rw [hsplit, ← cast_leadingBit] at hbelow
      nlinarith [h.low]
    exact ofRatio_eq_of_carry hnum hden (by omega) hgreatest h hbelow

theorem isCanonical_zero (negative : Bool) : (finite negative 0 minExponent).IsCanonical :=
  ⟨by decide, le_rfl, by decide, .inr rfl⟩

/-- Rounding gives a mantissa of 53 bits, or the least exponent. -/
theorem isCanonical_ofRatio (negative : Bool) (num : Nat) {den : Nat} (hden : 0 < den) :
    (ofRatio negative num den).IsCanonical := by
  obtain rfl | hnum := Nat.eq_zero_or_pos num
  · rw [ofRatio, if_pos rfl]
    exact isCanonical_zero negative
  have he := isExponent_exponentOf hnum hden
  generalize exponentOf num den = e at he
  obtain ⟨hd, hratio⟩ := scaled_spec hden num e
  rw [ofRatio_of_isExponent negative hnum hden he rfl]
  generalize (scaled num den e).1 = n at *
  generalize (scaled num den e).2 = d at *
  have hpos : (0 : ℚ) < d := by positivity
  have hpow := two_zpow_pos e
  obtain ⟨hfloor, hceil, -, -⟩ := roundHalfEven_bounds (n := n) hd
  have habove : n / d < 2 * leadingBit := by
    have : (n : ℚ) / d < 2 ^ (53 : ℤ) := by
      rw [hratio, div_lt_iff₀ hpow, ← zpow_add₀ (by norm_num)]
      exact he.above
    rw [div_lt_iff₀ hpos] at this
    rw [Nat.div_lt_iff_lt_mul hd]
    exact_mod_cast this
  have hbelow : leadingBit ≤ n / d ∨ e = minExponent := by
    refine he.below.imp_left fun h => ?_
    have : (2 : ℚ) ^ (52 : ℤ) ≤ n / d := by
      rw [hratio, le_div_iff₀ hpow, ← zpow_add₀ (by norm_num)]
      exact h
    rw [le_div_iff₀ hpos] at this
    rw [Nat.le_div_iff_mul_le hd]
    exact_mod_cast this
  have hleast := he.least
  split
  · split
    · trivial
    · exact ⟨by decide, by omega, by omega, .inl le_rfl⟩
  · split
    · trivial
    · exact ⟨by omega, hleast, by omega, hbelow.imp_left (·.trans hfloor)⟩

theorem isCanonical_ofDecimal (negative : Bool) (digits : Nat) (exponent : Int) :
    (ofDecimal negative digits exponent).IsCanonical := by
  unfold ofDecimal
  dsimp only
  split
  · exact isCanonical_zero negative
  · split
    · trivial
    · split
      · exact isCanonical_ofRatio _ _ Nat.one_pos
      · exact isCanonical_ofRatio _ _ (Nat.pow_pos (by decide))

theorem isCanonical_ofScaledInt (zeroNegative : Bool) (n e : Int) : (ofScaledInt zeroNegative n e).IsCanonical := by
  unfold ofScaledInt
  split
  · exact isCanonical_zero zeroNegative
  · split
    · exact isCanonical_ofRatio _ _ Nat.one_pos
    · exact isCanonical_ofRatio _ _ (Nat.pow_pos (by decide))

theorem IsCanonical.neg {x : Binary64} (h : x.IsCanonical) : x.neg.IsCanonical := by
  cases x <;> exact h

theorem isCanonical_add (x y : Binary64) : (x.add y).IsCanonical := by
  unfold add
  split
  case h_3 => split <;> trivial
  case h_6 => exact isCanonical_ofScaledInt _ _ _
  all_goals trivial

end NoteVault.Binary64
