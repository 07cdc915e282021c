import NoteVault.Proofs.Number.Shortest

/-!
The layout of a double: digits, a point, digits and an exponent, which are near the double together.
-/
namespace NoteVault.Binary64

open Number

/-- The digits before and behind a point, with an exponent, stand for the number that digits before a point
stand for. -/
structure LaysOut (text : List Char) (ds : List Char) (point : Int) (whole part tail : List Char) (n : Int) : Prop where
  text_eq : text = whole ++ '.' :: (part ++ tail)
  ne_nil : whole ≠ []
  whole_digits : ∀ c ∈ whole, c.isDigit = true
  part_digits : ∀ c ∈ part, c.isDigit = true
  exponent : IsExponentText tail n
  value : (decimalValue (whole ++ part) : ℚ) * 10 ^ (n - part.length) = decimalValue ds * 10 ^ (point - ds.length)

theorem isDigit_of_mem_zeros {k : Nat} {c : Char} (h : c ∈ List.replicate k '0') : c.isDigit = true := by
  rw [(List.mem_replicate.1 h).2]
  rfl

theorem laysOut_positional {ds : List Char} (hds : ∀ c ∈ ds, c.isDigit = true) (hne : ds ≠ []) (point : Int) :
    ∃ whole part, LaysOut (positional ds point) ds point whole part [] 0 := by
  have happend : ∀ {s t : List Char}, (∀ c ∈ s, c.isDigit = true) → (∀ c ∈ t, c.isDigit = true) →
      ∀ c ∈ s ++ t, c.isDigit = true := fun hs ht c hc => (List.mem_append.1 hc).elim (hs c) (ht c)
  unfold positional
  split
  next hpoint =>
    obtain ⟨k, rfl⟩ : ∃ k : ℕ, point = -k := ⟨(-point).toNat, by omega⟩
    refine ⟨['0'], List.replicate k '0' ++ ds, by simp, by simp, by simp, happend (fun c => isDigit_of_mem_zeros) hds,
      .none, ?_⟩
    rw [← List.replicate_one, ← List.append_assoc, List.replicate_append_replicate, decimalValue_zeros_append,
      List.length_append, List.length_replicate]
    congr 2
    push_cast
    ring
  next hpoint =>
    obtain ⟨k, rfl⟩ : ∃ k : ℕ, point = k := ⟨point.toNat, by omega⟩
    dsimp only
    rw [Int.toNat_natCast]
    by_cases hlong : ds.length ≤ k
    · -- all digits stand before the point, with zeros behind them
      refine ⟨ds ++ List.replicate (k - ds.length) '0', ['0'], ?_, by simp [hne],
        happend hds fun c => isDigit_of_mem_zeros, by simp, .none, ?_⟩
      · simp [List.take_of_length_le hlong, List.drop_of_length_le hlong]
      · rw [List.append_assoc, ← List.replicate_succ', decimalValue_append_zeros, Nat.cast_mul, mul_assoc]
        congr 1
        push_cast
        rw [← zpow_natCast, ← zpow_add₀ (by norm_num)]
        congr 1
        simp only [List.length_singleton]
        omega
    · refine ⟨ds.take k, ds.drop k, ?_, ?_, fun c hc => hds c (List.mem_of_mem_take hc),
        fun c hc => hds c (List.mem_of_mem_drop hc), .none, ?_⟩
      · have hdrop : ds.drop k ≠ [] := by simpa using hlong
        simp [Nat.sub_eq_zero_of_le (Nat.le_of_not_le hlong), hdrop]
      · simp only [ne_eq, List.take_eq_nil_iff, not_or]
        exact ⟨by omega, hne⟩
      · rw [List.take_append_drop, List.length_drop]
        congr 2
        omega

theorem isExponentText_padLeft (width : Nat) (exponent : Int) :
    IsExponentText ('e' :: (if exponent < 0 then '-' else '+') ::
      padLeft width (Nat.toDigits 10 exponent.natAbs)) exponent := by
  have hne : padLeft width (Nat.toDigits 10 exponent.natAbs) ≠ [] := by
    simp [padLeft, Nat.toDigits_ne_nil]
  have hdigits : ∀ c ∈ padLeft width (Nat.toDigits 10 exponent.natAbs), c.isDigit = true := by
    intro c hc
    obtain hc | hc := List.mem_append.1 hc
    · exact isDigit_of_mem_zeros hc
    · exact Nat.isDigit_of_mem_toDigits (by decide) (by decide) hc
  have hvalue : decimalValue (padLeft width (Nat.toDigits 10 exponent.natAbs)) = exponent.natAbs := by
    rw [padLeft, decimalValue_zeros_append, decimalValue_toDigits]
  split
  next h =>
    have := IsExponentText.minus hne hdigits
    rwa [hvalue, show -(exponent.natAbs : Int) = exponent by omega] at this
  next h =>
    have := IsExponentText.plus hne hdigits
    rwa [hvalue, show (exponent.natAbs : Int) = exponent by omega] at this

theorem laysOut_scientific {l : Layout} (hl : l.exponentPoint = true) {ds : List Char}
    (hds : ∀ c ∈ ds, c.isDigit = true)
    (hne : ds ≠ []) (point : Int) :
      ∃ whole part tail n, LaysOut (scientific l ds (point - 1)) ds point whole part tail n := by
  have htail := isExponentText_padLeft l.exponentWidth (point - 1)
  unfold scientific
  cases ds with
  | nil => exact absurd rfl hne
  | cons d rest =>
    cases rest with
    | nil =>
      refine ⟨[d], ['0'], _, _, by simp [hl], by simp, by simpa using hds, by simp, htail, ?_⟩
      have hvalue := decimalValue_append_zeros [d] 1
      rw [List.replicate_one] at hvalue
      rw [hvalue, Nat.cast_mul, mul_assoc, Nat.cast_pow, ← zpow_natCast, Nat.cast_ofNat, ← zpow_add₀ (by norm_num)]
      congr 2
      simp only [List.length_singleton]
      push_cast
      ring
    | cons c rest =>
      refine ⟨[d], c :: rest, _, _, by simp, by simp, fun x hx => hds x ?_,
        fun x hx => hds x (List.mem_cons_of_mem _ hx), htail, ?_⟩
      · rw [List.mem_singleton.1 hx]
        exact List.mem_cons_self
      · simp only [List.singleton_append, List.length_cons]
        congr 2
        push_cast
        ring

/-- The text of a positive double: digits around a point and an exponent, which are read as the double. -/
theorem exists_text {l : Layout} (hl : l.exponentPoint = true) {negative : Bool} {m : Nat} {e : Int} (hm : 0 < m)
    (hcanonical : (finite negative m e).IsCanonical) :
    ∃ whole part tail n, (l.write (finite negative m e)).toList =
        (if negative then ['-'] else []) ++ (whole ++ '.' :: (part ++ tail)) ∧ whole ≠ [] ∧
      (∀ c ∈ whole, c.isDigit = true) ∧ (∀ c ∈ part, c.isDigit = true) ∧ IsExponentText tail n ∧
      ∀ sign, ofDecimal sign (decimalValue (whole ++ part)) (n - part.length) = finite sign m e := by
  obtain ⟨hne, hdigits, hnear⟩ := shortest_spec hm hcanonical
  have hread : ∀ {text whole part tail : List Char} {n : Int},
      LaysOut text (shortest m e).digits (shortest m e).point whole part tail n →
      ∀ sign, ofDecimal sign (decimalValue (whole ++ part)) (n - part.length) = finite sign m e :=
    fun h sign => ofDecimal_eq hm hcanonical (h.value ▸ hnear)
  have hwrite : ∀ {text : List Char}, (if l.positionalFrom ≤ (shortest m e).point - 1 &&
      (shortest m e).point - 1 < l.positionalBelow then positional (shortest m e).digits (shortest m e).point
      else scientific l (shortest m e).digits ((shortest m e).point - 1)) = text →
      (l.write (finite negative m e)).toList = (if negative then ['-'] else []) ++ text := by
    intro text h
    rw [Layout.write]
    dsimp only
    rw [if_neg hm.ne', h]
    cases negative <;> simp
  split at hwrite
  · obtain ⟨whole, part, h⟩ := laysOut_positional hdigits hne (shortest m e).point
    exact ⟨whole, part, [], 0, hwrite h.text_eq, h.ne_nil, h.whole_digits, h.part_digits, h.exponent, hread h⟩
  · obtain ⟨whole, part, tail, n, h⟩ := laysOut_scientific hl hdigits hne (shortest m e).point
    exact ⟨whole, part, tail, n, hwrite h.text_eq, h.ne_nil, h.whole_digits, h.part_digits, h.exponent, hread h⟩

end NoteVault.Binary64
