import NoteVault.Proofs.Calendar

/-!
The order of days. Texts of days are in the order of code points exactly when the days are in the order of the calendar,
which counts the days of leap years too.
-/
namespace NoteVault

namespace Text

variable {s t : List Char}

/-- Texts whose beginnings are of one length are compared by these first. -/
theorem append_lt_append_iff {u v : List Char} (h : s.length = t.length) : s ++ u < t ++ v ↔ s < t ∨ s = t ∧ u < v := by
  induction s generalizing t with
  | nil =>
    obtain rfl : t = [] := List.length_eq_zero_iff.1 h.symm
    simp
  | cons c s ih =>
    cases t with
    | nil => cases h
    | cons d t =>
      rw [List.cons_append, List.cons_append, List.cons_lt_cons_iff, List.cons_lt_cons_iff, ih (by simpa using h),
        List.cons.injEq]
      tauto

end Text

namespace Calendar

theorem digitChar_lt_iff {a b : Nat} (ha : a < 10) (hb : b < 10) : Nat.digitChar a < Nat.digitChar b ↔ a < b := by
  interval_cases a <;> interval_cases b <;> decide

theorem padded_inj {width m n : Nat} (h : (padded width m).toList = (padded width n).toList) : m = n := by
  have hm := Date.number?_padded width m
  rw [h, Date.number?_padded] at hm
  exact (Option.some.inj hm).symm

/-- Numbers of one width are in the order of their digits. -/
theorem padded_lt_iff {width m n : Nat} (hm : m < 10 ^ (width + 1)) (hn : n < 10 ^ (width + 1)) :
    (padded (width + 1) m).toList < (padded (width + 1) n).toList ↔ m < n := by
  induction width generalizing m n with
  | zero =>
    have hdigit : ∀ {k : Nat}, k < 10 → (padded 1 k).toList = [Nat.digitChar k] := fun hk => by
      simp [toList_padded, Nat.toDigits_of_lt_base hk]
    rw [hdigit hm, hdigit hn]
    simpa [List.cons_lt_cons_iff] using digitChar_lt_iff hm hn
  | succ width ih =>
    have hrest : ∀ {k : Nat}, k < 10 ^ (width + 2) → k / 10 < 10 ^ (width + 1) := fun hk => by
      rw [Nat.pow_succ] at hk
      omega
    have hsplit : ∀ k, (padded (width + 2) k).toList = (padded (width + 1) (k / 10)).toList ++
        [Nat.digitChar (k % 10)] :=
      fun k => by rw [← toList_padded_concat (Nat.succ_pos width) _ (Nat.mod_lt k (by decide)), Nat.div_add_mod]
    have hlength : (padded (width + 1) (m / 10)).toList.length = (padded (width + 1) (n / 10)).toList.length := by
      rw [length_padded (Nat.succ_pos width) (hrest hm), length_padded (Nat.succ_pos width) (hrest hn)]
    have hlast : [Nat.digitChar (m % 10)] < [Nat.digitChar (n % 10)] ↔ m % 10 < n % 10 := by
      simpa [List.cons_lt_cons_iff] using digitChar_lt_iff (Nat.mod_lt m (by decide)) (Nat.mod_lt n (by decide))
    have heq : (padded (width + 1) (m / 10)).toList = (padded (width + 1) (n / 10)).toList ↔ m / 10 = n / 10 :=
      ⟨padded_inj, fun h => by rw [h]⟩
    rw [hsplit, hsplit, Text.append_lt_append_iff hlength, ih (hrest hm) (hrest hn), heq, hlast]
    omega

/-- The days of the years before a year. -/
def daysBeforeYear (year : Nat) : Nat := 365 * (year - 1) + (year - 1) / 4 - (year - 1) / 100 + (year - 1) / 400

/-- The days of the months of a year before a month. -/
def daysBeforeMonth (year month : Nat) : Nat :=
  (List.range (month - 1)).foldl (fun n m => n + daysInMonth year (m + 1)) 0

theorem daysBeforeYear_succ {year : Nat} (h : 1 ≤ year) :
    daysBeforeYear (year + 1) = daysBeforeYear year + if isLeapYear year then 366 else 365 := by
  obtain ⟨y, rfl⟩ : ∃ y, year = y + 1 := ⟨year - 1, by omega⟩
  have hle : y / 100 ≤ y / 4 := Nat.div_le_div_left (by decide) (by decide)
  have hleap : isLeapYear (y + 1) = true ↔ 4 ∣ y + 1 ∧ (¬ 100 ∣ y + 1 ∨ 400 ∣ y + 1) := by
    simp [isLeapYear, Nat.dvd_iff_mod_eq_zero]
  simp only [daysBeforeYear, Nat.add_sub_cancel, Nat.succ_div, hleap]
  split_ifs <;> omega

theorem daysBeforeYear_mono {year later : Nat} (hyear : 1 ≤ year) (h : year ≤ later) :
    daysBeforeYear year ≤ daysBeforeYear later := by
  induction h with
  | refl => exact le_rfl
  | step h ih =>
    rw [daysBeforeYear_succ (hyear.trans h)]
    omega

theorem daysBeforeMonth_succ {year month : Nat} (h : 1 ≤ month) :
    daysBeforeMonth year (month + 1) = daysBeforeMonth year month + daysInMonth year month := by
  obtain ⟨k, rfl⟩ : ∃ k, month = k + 1 := ⟨month - 1, by omega⟩
  simp [daysBeforeMonth, List.range_succ]

theorem daysBeforeMonth_mono (year : Nat) {month later : Nat} (h : month ≤ later) :
    daysBeforeMonth year month ≤ daysBeforeMonth year later := by
  induction h with
  | refl => exact le_rfl
  | @step later _ ih =>
    obtain rfl | hpos := Nat.eq_zero_or_pos later
    · exact ih
    · rw [daysBeforeMonth_succ hpos]
      omega

/-- A year has as many days as its months have together. -/
theorem daysBeforeMonth_thirteen (year : Nat) : daysBeforeMonth year 13 = if isLeapYear year then 366 else 365 := by
  cases h : isLeapYear year <;> simp [daysBeforeMonth, List.range_succ, daysInMonth, h]

end Calendar

namespace Date

open Calendar

/-- The earlier year, in one year the earlier month, in one month the earlier day. -/
def IsBefore (d e : Date) : Prop :=
  d.year < e.year ∨ d.year = e.year ∧ (d.month < e.month ∨ d.month = e.month ∧ d.day < e.day)

theorem text_lt_iff {d e : Date} : d.text < e.text ↔ d.IsBefore e := by
  have hwidths : ∀ d : Date, d.year < 10 ^ 4 ∧ d.month < 10 ^ 2 ∧ d.day < 10 ^ 2 := fun d => by
    have := d.year_range
    have := d.month_range
    have := d.day_range.2.trans (daysInMonth_le d.year d.month)
    omega
  obtain ⟨hyear, hmonth, hday⟩ := hwidths d
  obtain ⟨hyear', hmonth', hday'⟩ := hwidths e
  have hlength : ∀ {width m n : Nat}, m < 10 ^ (width + 1) → n < 10 ^ (width + 1) →
      (padded (width + 1) m).toList.length = (padded (width + 1) n).toList.length := fun hm hn => by
    rw [length_padded (Nat.succ_pos _) hm, length_padded (Nat.succ_pos _) hn]
  have heq : ∀ {width m n : Nat}, (padded width m).toList = (padded width n).toList ↔ m = n :=
    ⟨padded_inj, fun h => by rw [h]⟩
  have hlt : d.text < e.text ↔ d.text.toList < e.text.toList := Iff.rfl
  rw [hlt, text, text]
  simp only [String.toList_append, List.append_assoc]
  rw [Text.append_lt_append_iff (hlength hyear hyear'), padded_lt_iff hyear hyear', heq, Text.append_lt_append_iff rfl,
    Text.append_lt_append_iff (hlength hmonth hmonth'), padded_lt_iff hmonth hmonth', heq,
      Text.append_lt_append_iff rfl,
    padded_lt_iff hday hday']
  simp [IsBefore]

/-- The calendar counts the days of earlier years, those of earlier months, and those of the month. -/
theorem ordinal_eq (d : Date) : d.ordinal = daysBeforeYear d.year + daysBeforeMonth d.year d.month + d.day := rfl

theorem ordinal_lt_of_isBefore {d e : Date} (h : d.IsBefore e) : d.ordinal < e.ordinal := by
  obtain ⟨-, hmonth⟩ := d.month_range
  have hday := d.day_range.2
  have hday' := e.day_range.1
  have hend : daysBeforeMonth d.year d.month + d.day ≤ daysBeforeMonth d.year (d.month + 1) := by
    rw [daysBeforeMonth_succ d.month_range.1]
    omega
  rw [ordinal_eq, ordinal_eq]
  obtain hyear | ⟨hyear, hmonth' | ⟨hmonth', hlt⟩⟩ := h
  · have hnext := daysBeforeYear_mono (Nat.le_add_left 1 d.year) hyear
    have hlast := daysBeforeMonth_mono d.year (by omega : d.month + 1 ≤ 13)
    rw [daysBeforeYear_succ d.year_range.1, ← daysBeforeMonth_thirteen] at hnext
    omega
  · have hnext := daysBeforeMonth_mono d.year (by omega : d.month + 1 ≤ e.month)
    rw [← hyear]
    omega
  · rw [← hyear, ← hmonth']
    omega

/-- Texts of days are in the order of the days. -/
theorem text_lt_iff_ordinal {d e : Date} : d.text < e.text ↔ d.ordinal < e.ordinal := by
  rw [text_lt_iff]
  refine ⟨ordinal_lt_of_isBefore, fun h => ?_⟩
  by_contra hnot
  have hle : e.ordinal ≤ d.ordinal := by
    by_cases hback : e.IsBefore d
    · exact (ordinal_lt_of_isBefore hback).le
    · have hsame : d.year = e.year ∧ d.month = e.month ∧ d.day = e.day := by
        unfold IsBefore at hnot hback
        omega
      rw [ordinal_eq, ordinal_eq, hsame.1, hsame.2.1, hsame.2.2]
  omega

end Date

end NoteVault
