import Mathlib.Tactic
import NoteVault.Text.Fields

/-!
Lines of a text: its fields between line feeds, and texts whose further lines all hang, that is, are
empty or begin with a blank.
-/
namespace NoteVault.Text

theorem fields_append_sep (sep : Char) (s t : List Char) :
    fields sep (s ++ sep :: t) = fields sep s ++ fields sep t := by
  induction s with
  | nil => simp [fields]
  | cons c rest ih =>
    simp only [List.cons_append, fields]
    split
    · rw [ih]; rfl
    · rw [ih]
      cases hf : fields sep rest with
      | nil => exact absurd hf (fields_ne_nil sep rest)
      | cons f more => rfl

theorem fields_of_not_mem {sep : Char} {s : List Char} (h : sep ∉ s) : fields sep s = [s] := by
  induction s with
  | nil => rfl
  | cons c rest ih =>
    have hc : c ≠ sep := fun hc => h (by simp [hc])
    simp [fields, hc, ih (fun hm => h (List.mem_cons_of_mem _ hm))]

theorem fields_eq_cons (sep : Char) (s : List Char) :
    fields sep s = s.takeWhile (· ≠ sep) :: (fields sep s).tail := by
  induction s with
  | nil => rfl
  | cons c rest ih =>
    by_cases hc : c = sep
    · simp [fields, hc]
    · rw [fields, if_neg hc, ih]
      simp [hc]

theorem not_mem_of_mem_fields {sep : Char} {s line : List Char} (h : line ∈ fields sep s) :
    sep ∉ line := by
  induction s generalizing line with
  | nil => simp_all [fields]
  | cons c rest ih =>
    by_cases hc : c = sep
    · rw [fields, if_pos hc, List.mem_cons] at h
      obtain rfl | h := h
      · exact List.not_mem_nil
      · exact ih h
    · rw [fields, if_neg hc] at h
      cases hf : fields sep rest with
      | nil => exact absurd hf (fields_ne_nil sep rest)
      | cons f more =>
        rw [hf] at h ih
        obtain rfl | h := List.mem_cons.1 h
        · have hn := ih (List.mem_cons_self ..)
          exact fun hm => (List.mem_cons.1 hm).elim (fun he => hc he.symm) hn
        · exact ih (List.mem_cons_of_mem _ h)

theorem takeWhile_append_sep (sep : Char) (s t : List Char) :
    (s ++ sep :: t).takeWhile (· ≠ sep) = s.takeWhile (· ≠ sep) := by
  induction s with
  | nil => simp
  | cons c rest ih => by_cases hc : c = sep <;> simp_all

theorem takeWhile_append_of_not_mem {sep : Char} {s : List Char} (h : sep ∉ s) (t : List Char) :
    (s ++ t).takeWhile (· ≠ sep) = s ++ t.takeWhile (· ≠ sep) := by
  refine List.takeWhile_append_of_pos fun c hc => ?_
  have : c ≠ sep := fun he => h (he ▸ hc)
  simpa using this

/-- A field stands between separators or the ends of the text. -/
theorem exists_of_mem_fields {sep : Char} {s line : List Char} (h : line ∈ fields sep s) :
    ∃ x y, s = x ++ line ++ y ∧ (x = [] ∨ ∃ x', x = x' ++ [sep]) ∧ (y = [] ∨ ∃ y', y = sep :: y') := by
  induction hn : s.length using Nat.strong_induction_on generalizing s with
  | _ n ih =>
    have hs := (List.takeWhile_append_dropWhile (p := (· ≠ sep)) (l := s)).symm
    have hnot : sep ∉ s.takeWhile (· ≠ sep) := fun hm => by
      simpa using List.all_eq_true.1 (List.all_takeWhile (p := (· ≠ sep)) (l := s)) _ hm
    cases hd : s.dropWhile (· ≠ sep) with
    | nil =>
      rw [hd, List.append_nil] at hs
      rw [hs, fields_of_not_mem hnot, List.mem_singleton, ← hs] at h
      exact ⟨[], [], by simp [h], .inl rfl, .inl rfl⟩
    | cons c t =>
      have hc : c = sep := by
        have := List.head?_dropWhile_not (· ≠ sep) s
        rw [hd] at this
        simpa using this
      subst hc
      rw [hd] at hs
      rw [hs, fields_append_sep, fields_of_not_mem hnot, List.singleton_append, List.mem_cons] at h
      obtain rfl | h := h
      · exact ⟨[], c :: t, hs, .inl rfl, .inr ⟨t, rfl⟩⟩
      · have hlt : t.length < n := by
          rw [← hn, hs]
          simp
          omega
        obtain ⟨x, y, rfl, hx, hy⟩ := ih t.length hlt h rfl
        refine ⟨s.takeWhile (· ≠ c) ++ c :: x, y, by simpa using hs, .inr ?_, hy⟩
        obtain rfl | ⟨x', rfl⟩ := hx
        · exact ⟨_, rfl⟩
        · exact ⟨s.takeWhile (· ≠ c) ++ c :: x', by simp⟩

/-- No line behind the first one begins with a dash; the flag says that the text itself stands behind a
line feed. The text does not end behind one. -/
def hangs : Bool → List Char → Bool
  | behindBreak, [] => !behindBreak
  | behindBreak, c :: rest => (!behindBreak || c ≠ '-') && hangs (c = '\n') rest

theorem hangs_append {b : Bool} {s t : List Char} (hs : hangs b s = true) (ht : hangs false t = true) :
    hangs b (s ++ t) = true := by
  induction s generalizing b with
  | nil => cases b <;> simp_all [hangs]
  | cons c rest ih =>
    simp only [hangs, List.cons_append, Bool.and_eq_true] at hs ⊢
    exact ⟨hs.1, ih hs.2⟩

theorem hangs_of_not_mem {s : List Char} (h : '\n' ∉ s) : hangs false s = true := by
  induction s with
  | nil => rfl
  | cons c rest ih =>
    have hc : c ≠ '\n' := fun hc => h (by simp [hc])
    simp [hangs, hc, ih fun hm => h (List.mem_cons_of_mem _ hm)]

theorem hangs_flatMap {α : Type} {f : α → List Char} {as : List α}
    (h : ∀ a ∈ as, hangs false (f a) = true) : hangs false (as.flatMap f) = true := by
  induction as with
  | nil => rfl
  | cons a rest ih =>
    rw [List.flatMap_cons]
    exact hangs_append (h a (by simp)) (ih fun b hb => h b (List.mem_cons_of_mem _ hb))

theorem hangs_blanks (b : Bool) (n : Nat) : hangs b (List.replicate (n + 1) ' ') = true := by
  have h := hangs_of_not_mem (s := List.replicate n ' ') (by simp)
  simp [List.replicate_succ, hangs, h]

/-- A break, an indentation and what hangs. -/
theorem hangs_indented (n : Nat) {s : List Char} (h : hangs false s = true) :
    hangs false ('\n' :: List.replicate (n + 1) ' ' ++ s) = true := by
  simpa [hangs] using hangs_append (hangs_blanks true n) h

/-- Behind the first line of a hanging text no line begins with a dash. -/
theorem head?_of_mem_tail_fields {s line : List Char} {b : Bool} (h : hangs b s = true)
    (hl : line ∈ (fields '\n' s).tail ∨ b = true ∧ line = s.takeWhile (· ≠ '\n')) :
    line.head? ≠ some '-' := by
  induction s generalizing b with
  | nil => simp_all [fields, hangs]
  | cons c rest ih =>
    simp only [hangs, Bool.and_eq_true, Bool.or_eq_true, Bool.not_eq_true', decide_eq_true_eq] at h
    obtain ⟨hc, hr⟩ := h
    by_cases hn : c = '\n'
    · subst hn
      rcases hl with hl | ⟨-, rfl⟩
      · rw [fields, if_pos rfl, List.tail_cons, fields_eq_cons, List.mem_cons] at hl
        exact ih hr (hl.elim (fun hl => .inr ⟨by simp, hl⟩) .inl)
      · simp
    · rcases hl with hl | ⟨rfl, rfl⟩
      · rw [fields, if_neg hn, fields_eq_cons] at hl
        exact ih hr (.inl hl)
      · have hd : c ≠ '-' := by simpa using hc
        simp [hn, hd]

end NoteVault.Text
