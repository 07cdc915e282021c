import Mathlib.Tactic
import NoteVault.Text.Blank

/-!
What is dropped at the ends of a text are characters of one class, and the rest neither begins nor ends with one.
-/
namespace NoteVault.Text

variable {p : Char → Bool} {a s b : List Char}

theorem exists_trimBy (s : List Char) :
    ∃ a b, s = a ++ trimBy p s ++ b ∧ (∀ c ∈ a, p c = true) ∧ ∀ c ∈ b, p c = true := by
  have hall : ∀ t : List Char, ∀ c ∈ t.takeWhile p, p c = true := fun t c hc =>
    List.all_eq_true.1 (List.all_takeWhile (p := p) (l := t)) c hc
  refine ⟨s.takeWhile p, ((s.dropWhile p).reverse.takeWhile p).reverse, ?_, hall s, ?_⟩
  · rw [trimBy, List.append_assoc, ← List.reverse_append, List.takeWhile_append_dropWhile,
      List.reverse_reverse, List.takeWhile_append_dropWhile]
  · intro c hc
    exact hall _ c (List.mem_reverse.1 hc)

/-- Characters of the class are dropped up to the first other one. -/
theorem dropWhile_append (ha : ∀ c ∈ a, p c = true) (hhead : ∀ c, s.head? = some c → p c = false) :
    (a ++ s).dropWhile p = s := by
  rw [List.dropWhile_append_of_pos ha]
  cases s with
  | nil => rfl
  | cons c s => exact List.dropWhile_cons_of_neg (by simp [hhead c rfl])

theorem trimBy_append (ha : ∀ c ∈ a, p c = true) (hb : ∀ c ∈ b, p c = true)
    (hhead : ∀ c, s.head? = some c → p c = false) (hlast : ∀ c, s.getLast? = some c → p c = false) :
    trimBy p (a ++ s ++ b) = s := by
  by_cases hne : s = []
  · have hall : ∀ c ∈ a ++ b, p c = true := by simpa [or_imp, forall_and] using ⟨ha, hb⟩
    have hnone := dropWhile_append (s := []) hall nofun
    rw [List.append_nil] at hnone
    rw [hne, List.append_nil, trimBy, hnone]
    rfl
  · have hfront : ∀ c, (s ++ b).head? = some c → p c = false := fun c hc => by
      rw [List.head?_append_of_ne_nil _ hne] at hc
      exact hhead c hc
    have hback : ∀ c, s.reverse.head? = some c → p c = false := fun c hc => hlast c (List.head?_reverse ▸ hc)
    rw [trimBy, List.append_assoc, dropWhile_append ha hfront, List.reverse_append,
      dropWhile_append (fun c hc => hb c (List.mem_reverse.1 hc)) hback, List.reverse_reverse]

/-- Nothing is dropped from a text that neither begins nor ends with a character of the class. -/
theorem trimBy_eq_self (hhead : ∀ c, s.head? = some c → p c = false) (hlast : ∀ c, s.getLast? = some c → p c = false) :
    trimBy p s = s := by
  have hself := trimBy_append (a := []) (b := []) nofun nofun hhead hlast
  rwa [List.nil_append, List.append_nil] at hself

theorem trimBy_of_none (h : ∀ c ∈ s, p c = false) : trimBy p s = s :=
  trimBy_eq_self (fun c hc => h c (List.mem_of_head? hc)) fun c hc => h c (List.mem_of_getLast? hc)

end NoteVault.Text
