import NoteVault.Calendar
import NoteVault.Proofs.Text.Digits
import NoteVault.Text.Digit

/-!
Days as texts. The text of a day is read as that day, and no other text is read as a day.
-/
namespace NoteVault

namespace Calendar

theorem toList_padded (width n : Nat) :
    (padded width n).toList =
      List.replicate (width - (Nat.toDigits 10 n).length) '0' ++ Nat.toDigits 10 n := by
  simp [padded]

theorem length_padded {width n : Nat} (hwidth : 0 < width) (h : n < 10 ^ width) :
    (padded width n).toList.length = width := by
  have hle := (Nat.length_toDigits_le_iff (by decide) hwidth).2 h
  rw [toList_padded, List.length_append, List.length_replicate]
  omega

/-- One more digit at the end, in a field that is one wider. -/
theorem toList_padded_concat {width : Nat} (hwidth : 0 < width) (n : Nat) {d : Nat} (hd : d < 10) :
    (padded (width + 1) (10 * n + d)).toList = (padded width n).toList ++ [Nat.digitChar d] := by
  rw [toList_padded, toList_padded]
  obtain rfl | hn := Nat.eq_zero_or_pos n
  · -- a zero has a digit of its own, which stands for one of the zeros in front
    obtain ⟨w, rfl⟩ : ∃ w, width = w + 1 := ⟨width - 1, by omega⟩
    rw [Nat.mul_zero, Nat.zero_add, Nat.toDigits_of_lt_base hd]
    simp [List.replicate_succ']
  · have hdigits : Nat.toDigits 10 (10 * n + d) = Nat.toDigits 10 n ++ [Nat.digitChar d] := by
      rw [← Nat.toDigits_append_toDigits (by decide) hn hd, Nat.toDigits_of_lt_base hd]
    rw [hdigits, List.length_append, List.length_singleton, Nat.add_sub_add_right, List.append_assoc]

end Calendar

namespace Date

open Calendar

/-- What an ASCII digit stands for. -/
theorem exists_digit {c : Char} (h : c.isDigit = true) : ∃ d, d < 10 ∧ c.toNat - 48 = d ∧ c = Nat.digitChar d := by
  have hcode : 48 ≤ c.toNat ∧ c.toNat ≤ 57 := by simpa [Char.isDigit_iff_toNat] using h
  refine ⟨c.toNat - 48, by omega, rfl, ?_⟩
  obtain ⟨k, hk, hc⟩ : ∃ k, k < 10 ∧ c.toNat = 48 + k := ⟨c.toNat - 48, by omega, by omega⟩
  apply Char.toNat_inj.1
  rw [hc, Nat.add_sub_cancel_left]
  interval_cases k <;> rfl

theorem number?_eq_some_iff {s : List Char} {n : Nat} :
    number? s = some n ↔ s ≠ [] ∧ (∀ c ∈ s, c.isDigit = true) ∧ Text.valueOf 10 (fun c => c.toNat - 48) s = n := by
  unfold number?
  split
  next h => simp_all [Text.valueOf]
  next h => simp_all

theorem number?_padded (width n : Nat) : number? (padded width n).toList = some n := by
  rw [number?_eq_some_iff, toList_padded]
  refine ⟨?_, ?_, ?_⟩
  · rw [Nat.toDigits_eq_if (by decide)]
    split <;> simp
  · intro c hc
    obtain hzero | hdigit := List.mem_append.1 hc
    · rw [List.eq_of_mem_replicate hzero]
      rfl
    · exact Nat.isDigit_of_mem_toDigits (by decide) (by decide) hdigit
  · rw [Text.valueOf_replicate_zero _ rfl, Text.valueOf_toDigits (by decide)]
    intro d hd
    interval_cases d <;> rfl

/-- Digits are what their number is padded to. -/
theorem toList_padded_of_number? {s : List Char} {n : Nat} (h : number? s = some n) :
    (padded s.length n).toList = s := by
  obtain ⟨hne, hdigits, rfl⟩ := number?_eq_some_iff.1 h
  clear h
  induction s using List.reverseRecOn with
  | nil => exact absurd rfl hne
  | append_singleton s c ih =>
    obtain ⟨d, hd, hvalue, rfl⟩ := exists_digit (hdigits c (by simp))
    rw [Text.valueOf_append_single, hvalue, List.length_append, List.length_singleton]
    cases s with
    | nil => simp [Text.valueOf, toList_padded, Nat.toDigits_of_lt_base hd]
    | cons a s =>
      rw [toList_padded_concat (by simp) _ hd, ih (by simp) fun x hx => hdigits x (List.mem_append_left _ hx)]

theorem make_self (d : Date) : make d.year d.month d.day = .ok d := by
  rw [make, dif_pos d.year_range, dif_pos d.month_range, dif_pos d.day_range]

theorem numbers_of_make {year month day : Nat} {d : Date} (h : make year month day = .ok d) :
    d.year = year ∧ d.month = month ∧ d.day = day := by
  unfold make at h
  split at h
  · split at h
    · split at h
      · cases h
        exact ⟨rfl, rfl, rfl⟩
      · cases h
    · cases h
  · cases h

theorem exists_make_iff (year month day : Nat) : (∃ d, make year month day = .ok d) ↔
    (1 ≤ year ∧ year ≤ 9999) ∧ (1 ≤ month ∧ month ≤ 12) ∧ 1 ≤ day ∧ day ≤ daysInMonth year month := by
  constructor
  · rintro ⟨d, h⟩
    obtain ⟨rfl, rfl, rfl⟩ := numbers_of_make h
    exact ⟨d.year_range, d.month_range, d.day_range⟩
  · rintro ⟨hyear, hmonth, hday⟩
    exact ⟨_, by rw [make, dif_pos hyear, dif_pos hmonth, dif_pos hday]⟩

theorem daysInMonth_le (year month : Nat) : daysInMonth year month ≤ 31 := by
  unfold daysInMonth
  split
  · split <;> decide
  · split <;> decide

/-- The text of a day is read as that day. -/
theorem ofText?_text (d : Date) : ofText? d.text.toList = some d := by
  obtain ⟨-, hyear⟩ := d.year_range
  obtain ⟨-, hmonth⟩ := d.month_range
  have hday := d.day_range.2.trans (daysInMonth_le d.year d.month)
  obtain ⟨y₁, y₂, y₃, y₄, hy⟩ := List.length_eq_four.1 (length_padded (by decide : 0 < 4) (by omega : d.year < 10 ^ 4))
  obtain ⟨m₁, m₂, hm⟩ := List.length_eq_two.1 (length_padded (by decide : 0 < 2) (by omega : d.month < 10 ^ 2))
  obtain ⟨d₁, d₂, hd⟩ := List.length_eq_two.1 (length_padded (by decide : 0 < 2) (by omega : d.day < 10 ^ 2))
  have htext : d.text.toList = [y₁, y₂, y₃, y₄, '-', m₁, m₂, '-', d₁, d₂] := by
    simp [text, hy, hm, hd]
  have hyear := number?_padded 4 d.year
  have hmonth := number?_padded 2 d.month
  have hday := number?_padded 2 d.day
  rw [hy] at hyear
  rw [hm] at hmonth
  rw [hd] at hday
  rw [htext]
  simp [ofText?, hyear, hmonth, hday, make_self, Except.toOption]

/-- A text that is read as a day is the text of the day. -/
theorem text_of_ofText? {s : List Char} {d : Date} (h : ofText? s = some d) : d.text.toList = s := by
  unfold ofText? at h
  split at h
  next y₁ y₂ y₃ y₄ m₁ m₂ d₁ d₂ =>
    simp only [Option.bind_eq_bind, Option.bind_eq_some_iff] at h
    obtain ⟨year, hyear, month, hmonth, day, hday, hmake⟩ := h
    obtain ⟨rfl, rfl, rfl⟩ : d.year = year ∧ d.month = month ∧ d.day = day := by
      cases hd : make year month day with
      | error e => simp [hd, Except.toOption] at hmake
      | ok d' =>
        obtain rfl : d' = d := by simpa [hd, Except.toOption] using hmake
        exact numbers_of_make hd
    have hy := toList_padded_of_number? hyear
    have hm := toList_padded_of_number? hmonth
    have hd := toList_padded_of_number? hday
    simp only [List.length_cons, List.length_nil, Nat.zero_add, Nat.reduceAdd] at hy hm hd
    simp [text, hy, hm, hd]
  next => cases h

/-- A text that is read as a day has the form of one. -/
theorem afterDay?_of_ofText? {s : List Char} {d : Date} (h : ofText? s = some d) : Text.afterDay? s = some [] := by
  unfold ofText? at h
  split at h
  next y₁ y₂ y₃ y₄ m₁ m₂ d₁ d₂ =>
    simp only [Option.bind_eq_bind, Option.bind_eq_some_iff] at h
    obtain ⟨year, hyear, month, hmonth, day, hday, -⟩ := h
    have hdecimal : ∀ {s : List Char} {n : Nat}, number? s = some n → ∀ c ∈ s, Text.isDecimalDigit c = true :=
      fun h c hc => Text.isDecimalDigit_of_isDigit ((number?_eq_some_iff.1 h).2.1 c hc)
    have hy := hdecimal hyear
    have hm := hdecimal hmonth
    have hd := hdecimal hday
    simp only [List.forall_mem_cons, List.not_mem_nil, false_implies, implies_true, and_true] at hy hm hd
    simp [Text.afterDay?, hy, hm, hd]
  next => cases h

end Date

namespace DateTime

theorem exists_make_iff (year month day hour minute second microsecond : Nat) (offset : Option Int) :
    (∃ t, make year month day hour minute second microsecond offset = .ok t) ↔
      (1 ≤ year ∧ year ≤ 9999) ∧ (1 ≤ month ∧ month ≤ 12) ∧ (1 ≤ day ∧ day ≤ Calendar.daysInMonth year month) ∧
        hour ≤ 23 ∧ minute ≤ 59 ∧ second ≤ 59 := by
  have hdate := Date.exists_make_iff year month day
  unfold make
  cases hmake : Date.make year month day with
  | error e =>
    have hnot : ¬ ∃ d, Date.make year month day = .ok d := by simp [hmake]
    rw [hdate] at hnot
    constructor
    · rintro ⟨t, h⟩
      cases h
    · rintro ⟨hyear, hmonth, hday, -⟩
      exact absurd ⟨hyear, hmonth, hday⟩ hnot
  | ok date =>
    obtain ⟨hyear, hmonth, hday⟩ := hdate.1 ⟨date, hmake⟩
    by_cases hhour : 23 < hour
    · simp [bind, Except.bind, throw, throwThe, MonadExceptOf.throw, hhour]
    by_cases hminute : 59 < minute
    · simp [bind, Except.bind, throw, throwThe, MonadExceptOf.throw, hhour, hminute]
    by_cases hsecond : 59 < second
    · simp [bind, Except.bind, throw, throwThe, MonadExceptOf.throw, hhour, hminute, hsecond]
    simp [bind, Except.bind, hhour, hminute, hsecond, hyear, hmonth, hday, pure, Except.pure]
    omega

end DateTime

end NoteVault
