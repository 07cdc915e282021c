/-!
Texts in the order of code points, which is also the order of their bytes, and in the order in which they
first occur.
-/
namespace NoteVault.Text

/-- At most, in the order of code points. -/
def le (a b : String) : Bool := !(b < a)

/-- Texts in the order of code points. -/
def sorted (texts : List String) : List String := texts.mergeSort le

theorem le_iff {a b : String} : le a b = true ↔ a ≤ b := by
  simp only [le, Bool.not_eq_true', decide_eq_false_iff_not, String.not_lt]

theorem le_trans {a b c : String} (hab : le a b = true) (hbc : le b c = true) : le a c = true :=
  le_iff.2 (String.le_trans (le_iff.1 hab) (le_iff.1 hbc))

theorem le_total (a b : String) : (le a b || le b a) = true := by
  rcases String.le_total a b with h | h <;> simp [le_iff.2 h]

theorem sorted_perm (texts : List String) : (sorted texts).Perm texts := List.mergeSort_perm texts le

theorem sorted_pairwise (texts : List String) : (sorted texts).Pairwise fun a b => le a b = true :=
  @List.pairwise_mergeSort _ le (fun _ _ _ hab hbc => le_trans hab hbc) le_total texts

/-- Texts in the order of their first occurrence, each once. -/
def firstOccurrences : List String → List String
  | [] => []
  | name :: rest => name :: (firstOccurrences rest).filter (· ≠ name)

@[simp] theorem mem_firstOccurrences {name : String} {names : List String} :
    name ∈ firstOccurrences names ↔ name ∈ names := by
  induction names with
  | nil => simp [firstOccurrences]
  | cons n rest ih => by_cases h : name = n <;> simp [firstOccurrences, h, ih]

theorem firstOccurrences_nodup (names : List String) : (firstOccurrences names).Nodup := by
  induction names with
  | nil => simp [firstOccurrences]
  | cons n rest ih =>
    refine List.nodup_cons.2 ⟨by simp, ?_⟩
    exact List.Pairwise.filter _ ih

theorem firstOccurrences_sublist (names : List String) : (firstOccurrences names).Sublist names := by
  induction names with
  | nil => exact .slnil
  | cons name rest ih => exact (List.filter_sublist.trans ih).cons_cons name

/-- Names are lost where they occur again. -/
theorem length_firstOccurrences_lt {names : List String} (h : ¬ names.Nodup) :
    (firstOccurrences names).length < names.length := by
  have hsublist := firstOccurrences_sublist names
  apply Nat.lt_of_le_of_ne hsublist.length_le
  intro hlength
  apply h
  rw [← hsublist.eq_of_length hlength]
  exact firstOccurrences_nodup names

theorem firstOccurrences_concat (names : List String) (name : String) :
    firstOccurrences (names ++ [name]) =
      if name ∈ names then firstOccurrences names else firstOccurrences names ++ [name] := by
  induction names with
  | nil => rfl
  | cons n rest ih =>
    rw [List.cons_append, firstOccurrences, ih]
    by_cases hn : name = n
    · subst hn
      by_cases hr : name ∈ rest <;> simp [firstOccurrences, hr]
    · by_cases hr : name ∈ rest <;> simp [firstOccurrences, hr, hn]

example : firstOccurrences ["b", "a", "b"] = ["b", "a"] := by decide

example : sorted ["b", "B", "ä", "a"] = ["B", "a", "b", "ä"] := by cbv

end NoteVault.Text
