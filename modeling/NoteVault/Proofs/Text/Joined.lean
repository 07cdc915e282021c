import Mathlib.Tactic

/-!
Texts that are joined by a separator: each of them stands in the whole, and the whole tells them apart if none of them
holds the separator.
-/
namespace NoteVault.Text

theorem infix_append {s : List Char} {t : String} (before : String) (h : s <:+: t.toList) :
    s <:+: (before ++ t).toList := by
  rw [String.toList_append]
  exact h.trans (List.suffix_append _ _).isInfix

theorem infix_intercalate {sep s : String} {texts : List String} (h : s ∈ texts) :
    s.toList <:+: (sep.intercalate texts).toList := by
  induction texts with
  | nil => cases h
  | cons t texts ih =>
    by_cases hlast : texts = []
    · obtain rfl : s = t := by simpa [hlast] using h
      rw [hlast, String.intercalate_singleton]
    rw [String.intercalate_cons_of_ne_nil hlast]
    obtain rfl | h := List.mem_cons.1 h
    · rw [String.append_assoc, String.toList_append]
      exact (List.prefix_append _ _).isInfix
    · exact infix_append _ (ih h)

theorem intercalate_inj {sep : String} {c : Char} {as bs : List String} (hsep : sep.toList = [c])
    (has : ∀ a ∈ as, c ∉ a.toList) (hbs : ∀ b ∈ bs, c ∉ b.toList) (ha : as ≠ []) (hb : bs ≠ [])
    (h : sep.intercalate as = sep.intercalate bs) : as = bs := by
  have hsplit : ∀ {ts : List String}, (∀ t ∈ ts, c ∉ t.toList) → ts ≠ [] →
      (sep.intercalate ts).toList.splitOn c = ts.map String.toList := fun {ts} hts hne => by
    rw [String.toList_intercalate, hsep]
    exact List.splitOn_intercalate c (by simpa using hts) (by simpa using hne)
  have hlists : as.map String.toList = bs.map String.toList := by rw [← hsplit has ha, ← hsplit hbs hb, h]
  exact List.map_injective_iff.2 (fun _ _ => String.toList_inj.1) hlists

end NoteVault.Text
