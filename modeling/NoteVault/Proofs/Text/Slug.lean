import NoteVault.Proofs.Text.Case
import NoteVault.Proofs.Text.Trim
import NoteVault.Text.Slug

/-!
Slugs hold the small letters and digits of a text in lower case, all of them and in their order, in words with single
hyphens between them; a slug is its own slug. They are also what is left of the text where each run of other characters
becomes one hyphen and the hyphens at both ends are dropped.
-/
namespace NoteVault.Text

section Runs

variable {p : Char → Bool}

/-- A separator cuts a text in two. -/
theorem runs_append_cons (s t : List Char) {c : Char} (hc : p c = false) :
    runs p (s ++ c :: t) = runs p s ++ runs p t := by
  rw [runs, List.splitOnP_append_cons s t (by simp [hc]), List.filter_append]
  rfl

/-- A text without separators is one run, if there is anything in it. -/
theorem runs_of_forall {w : List Char} (h : ∀ c ∈ w, p c = true) : runs p w = if w = [] then [] else [w] := by
  rw [runs, List.splitOnP_eq_singleton fun c hc => by simp [h c hc]]
  split <;> simp [*]

/-- A text has no separator, or its first one follows a word that may be empty. -/
theorem word_induction (p : Char → Bool) {motive : List Char → Prop} (word : ∀ w, (∀ c ∈ w, p c = true) → motive w)
    (cut : ∀ w c t, (∀ d ∈ w, p d = true) → p c = false → motive t → motive (w ++ c :: t)) (s : List Char) :
      motive s := by
  -- on the rest of the text, behind a word that may still go on
  have hrest : ∀ s w, (∀ c ∈ w, p c = true) → motive (w ++ s) := by
    intro s
    induction s with
    | nil =>
      intro w hw
      rw [List.append_nil]
      exact word w hw
    | cons c s ih =>
      intro w hw
      cases hc : p c with
      | true =>
        have hlonger : ∀ d ∈ w ++ [c], p d = true := by simpa [or_imp, forall_and, hc] using hw
        rw [List.append_cons]
        exact ih (w ++ [c]) hlonger
      | false => exact cut w c s hw hc (ih [] nofun)
  exact hrest s [] nofun

/-- Runs are words: they are not empty and hold no separators. -/
theorem of_mem_runs {s w : List Char} (h : w ∈ runs p s) : w ≠ [] ∧ ∀ c ∈ w, p c = true := by
  have hword : ∀ v : List Char, (∀ c ∈ v, p c = true) → w ∈ runs p v → w ≠ [] ∧ ∀ c ∈ w, p c = true := by
    intro v hv hw
    rw [runs_of_forall hv] at hw
    split at hw
    next => cases hw
    next hne =>
      obtain rfl := List.mem_singleton.1 hw
      exact ⟨hne, hv⟩
  induction s using word_induction p with
  | word v hv => exact hword v hv h
  | cut v c t hv hc ih =>
    rw [runs_append_cons v t hc] at h
    obtain h | h := List.mem_append.1 h
    · exact hword v hv h
    · exact ih h

/-- The runs together are all characters of the class. -/
theorem flatten_runs (p : Char → Bool) (s : List Char) : (runs p s).flatten = s.filter p := by
  have hword : ∀ w : List Char, (∀ c ∈ w, p c = true) → (runs p w).flatten = w.filter p := by
    intro w hw
    rw [List.filter_eq_self.2 hw, runs_of_forall hw]
    split <;> simp [*]
  induction s using word_induction p with
  | word w hw => exact hword w hw
  | cut w c t hw hc ih =>
    rw [runs_append_cons w t hc, List.flatten_append, hword w hw, ih, List.filter_append,
      List.filter_cons_of_neg (by simp [hc])]

/-- Words that are joined by a separator are the runs of the whole. -/
theorem runs_intercalate {c : Char} (hc : p c = false) {words : List (List Char)}
    (h : ∀ w ∈ words, w ≠ [] ∧ ∀ d ∈ w, p d = true) : runs p ([c].intercalate words) = words := by
  induction words with
  | nil => rfl
  | cons w rest ih =>
    obtain ⟨hne, hw⟩ := h w List.mem_cons_self
    have hword : runs p w = [w] := (runs_of_forall hw).trans (if_neg hne)
    cases rest with
    | nil => rw [List.intercalate_singleton, hword]
    | cons v rest =>
      rw [List.intercalate_cons_cons, List.append_assoc, List.singleton_append, runs_append_cons w _ hc, hword,
        ih fun u hu => h u (List.mem_cons_of_mem w hu), List.singleton_append]

end Runs

section Form

/-- Words of small letters and digits with single hyphens between them; no words at all are a slug, too. -/
def IsSlug (s : List Char) : Prop :=
  ∃ words : List (List Char), (∀ w ∈ words, w ≠ [] ∧ ∀ c ∈ w, isSlugChar c = true) ∧ s = ['-'].intercalate words

theorem isSlugChar_hyphen : isSlugChar '-' = false := by decide

theorem ne_hyphen {c : Char} (h : isSlugChar c = true) : c ≠ '-' := by
  rintro rfl
  rw [isSlugChar_hyphen] at h
  cases h

theorem toList_slug (s : String) : (slug s).toList = ['-'].intercalate (runs isSlugChar (lower s).toList) := by
  rw [slug, String.toList_intercalate, List.map_map]
  simp [Function.comp_def]

theorem isSlug_slug (s : String) : IsSlug (slug s).toList := ⟨_, fun _ hw => of_mem_runs hw, toList_slug s⟩

/-- Nothing else than small letters, digits and hyphens stands in a slug. -/
theorem IsSlug.eq_hyphen {s : List Char} (h : IsSlug s) {c : Char} (hc : c ∈ s) (hnot : isSlugChar c = false) :
    c = '-' := by
  obtain ⟨words, hwords, rfl⟩ := h
  induction words with
  | nil => cases hc
  | cons w rest ih =>
    have hword : c ∉ w := fun hmem => by simp [(hwords w List.mem_cons_self).2 c hmem] at hnot
    cases rest with
    | nil =>
      rw [List.intercalate_singleton] at hc
      exact absurd hc hword
    | cons v rest =>
      rw [List.intercalate_cons_cons, List.append_assoc] at hc
      obtain hc | hc := List.mem_append.1 hc
      · exact absurd hc hword
      obtain hc | hc := List.mem_append.1 hc
      · exact List.mem_singleton.1 hc
      · exact ih (fun u hu => hwords u (List.mem_cons_of_mem w hu)) hc

theorem IsSlug.head {s : List Char} (h : IsSlug s) {c : Char} (hc : s.head? = some c) : isSlugChar c = true := by
  obtain ⟨words, hwords, rfl⟩ := h
  cases words with
  | nil => cases hc
  | cons w rest =>
    obtain ⟨hne, hw⟩ := hwords w List.mem_cons_self
    cases w with
    | nil => exact absurd rfl hne
    | cons d w =>
      rw [List.intercalate_cons_cons_left, List.head?_cons] at hc
      exact hw c (Option.some.inj hc ▸ List.mem_cons_self)

theorem IsSlug.last {s : List Char} (h : IsSlug s) {c : Char} (hc : s.getLast? = some c) : isSlugChar c = true := by
  obtain ⟨words, hwords, rfl⟩ := h
  induction words with
  | nil => cases hc
  | cons w rest ih =>
    cases rest with
    | nil =>
      rw [List.intercalate_singleton] at hc
      exact (hwords w List.mem_cons_self).2 c (List.mem_of_getLast? hc)
    | cons v rest =>
      have hrest : ['-'].intercalate (v :: rest) ≠ [] := by
        obtain ⟨d, v, rfl⟩ := List.exists_cons_of_ne_nil (hwords v (by simp)).1
        rw [List.intercalate_cons_cons_left]
        exact List.cons_ne_nil d _
      rw [List.intercalate_cons_cons, List.getLast?_append_of_ne_nil _ hrest] at hc
      exact ih (fun u hu => hwords u (List.mem_cons_of_mem w hu)) hc

/-- Small letters, digits and hyphens are their own lower case. -/
theorem isSlugChar_class {c : Char} (h : isSlugChar c = true ∨ c = '-') : c ≠ 'Σ' ∧ lowerChar c = [c] := by
  have hascii : c.toNat < 128 := by
    obtain h | rfl := h
    · simp only [isSlugChar, Bool.or_eq_true, Bool.and_eq_true, decide_eq_true_eq, Char.le_def,
        UInt32.le_iff_toNat_le] at h
      obtain h | h := h
      · exact Nat.lt_of_le_of_lt h.2 (by decide)
      · exact Nat.lt_of_le_of_lt h.2 (by decide)
    · decide
  have hclass := of_ascii (p := fun c => !(isSlugChar c || c = '-') || (c ≠ 'Σ' && lowerChar c = [c])) hascii
    (by decide +kernel)
  simp only [Bool.or_eq_true, Bool.not_eq_true', Bool.or_eq_false_iff, Bool.and_eq_true, decide_eq_true_eq,
    decide_eq_false_iff_not] at hclass
  refine hclass.resolve_left fun hnot => ?_
  obtain h | h := h
  · simp [h] at hnot
  · exact hnot.2 h

theorem lower_of_isSlug {s : String} (h : IsSlug s.toList) : lower s = s := by
  have hsame : ∀ t : List Char, (∀ c ∈ t, c ≠ 'Σ' ∧ lowerChar c = [c]) → ∀ before, lowerBetween before false t = t := by
    intro t ht
    induction t with
    | nil => exact fun _ => rfl
    | cons c t ih =>
      intro before
      obtain ⟨hsigma, hlower⟩ := ht c List.mem_cons_self
      rw [lowerBetween, if_neg hsigma, hlower, ih fun d hd => ht d (List.mem_cons_of_mem c hd), List.singleton_append]
  rw [← String.toList_inj, toList_lower]
  refine hsame s.toList (fun c hc => isSlugChar_class ?_) false
  cases hslug : isSlugChar c with
  | true => exact .inl rfl
  | false => exact .inr (h.eq_hyphen hc hslug)

/-- The texts that are their own slugs. -/
theorem slug_eq_self_iff {s : String} : slug s = s ↔ IsSlug s.toList := by
  constructor
  · intro h
    rw [← h]
    exact isSlug_slug s
  · intro h
    obtain ⟨words, hwords, hs⟩ := id h
    rw [← String.toList_inj, toList_slug, lower_of_isSlug h, hs, runs_intercalate isSlugChar_hyphen hwords]

/-- Without its hyphens a slug is what the text in lower case has of small letters and digits. -/
theorem filter_slug (s : String) : (slug s).toList.filter (· ≠ '-') = (lower s).toList.filter isSlugChar := by
  have hclass : (slug s).toList.filter (· ≠ '-') = (slug s).toList.filter isSlugChar := by
    refine List.filter_congr fun c hc => ?_
    cases hslug : isSlugChar c with
    | true => exact decide_eq_true (ne_hyphen hslug)
    | false => exact decide_eq_false (not_not.2 ((isSlug_slug s).eq_hyphen hc hslug))
  rw [hclass, ← flatten_runs, toList_slug, runs_intercalate isSlugChar_hyphen fun _ hw => of_mem_runs hw, flatten_runs]

theorem slug_eq_empty_iff {s : String} : slug s = "" ↔ ∀ c ∈ (lower s).toList, isSlugChar c = false := by
  have hnone : (∀ c ∈ (lower s).toList, isSlugChar c = false) ↔ (lower s).toList.filter isSlugChar = [] := by
    simp only [List.filter_eq_nil_iff, Bool.not_eq_true]
  rw [hnone]
  constructor
  · intro h
    rw [← filter_slug, h]
    rfl
  · intro h
    rw [← flatten_runs, List.flatten_eq_nil_iff] at h
    have hruns : runs isSlugChar (lower s).toList = [] :=
      List.eq_nil_iff_forall_not_mem.2 fun w hw => (of_mem_runs hw).1 (h w hw)
    rw [← String.toList_inj, toList_slug, hruns]
    rfl

end Form

section Collapsed

/-- Each run of characters other than small letters and digits becomes one hyphen. -/
def collapsed : List Char → List Char
  | [] => []
  | c :: s => if isSlugChar c then c :: collapsed s else '-' :: collapsed (s.dropWhile (!isSlugChar ·))
termination_by s => s.length
decreasing_by
  · simp
  · exact Nat.lt_succ_of_le (List.dropWhile_sublist _).length_le

theorem collapsed_append {w : List Char} (hw : ∀ c ∈ w, isSlugChar c = true) (s : List Char) :
    collapsed (w ++ s) = w ++ collapsed s := by
  induction w with
  | nil => rfl
  | cons c w ih =>
    rw [List.cons_append, collapsed, if_pos (hw c List.mem_cons_self), ih fun d hd => hw d (List.mem_cons_of_mem c hd),
      List.cons_append]

/-- In front of a word nothing is dropped. -/
theorem dropWhile_word {w : List Char} (hw : ∀ c ∈ w, isSlugChar c = true) (hne : w ≠ []) (s : List Char) :
    (w ++ s).dropWhile (!isSlugChar ·) = w ++ s := by
  obtain ⟨c, w, rfl⟩ := List.exists_cons_of_ne_nil hne
  exact List.dropWhile_cons_of_neg (by simp [hw c List.mem_cons_self])

/-- From its first word on, a collapsed text is its words with hyphens between them, and perhaps one more at the end. -/
theorem exists_collapsed_word (s : List Char) : ∃ tail, (∀ c ∈ tail, c = '-') ∧
    collapsed (s.dropWhile (!isSlugChar ·)) = ['-'].intercalate (runs isSlugChar s) ++ tail := by
  induction s using word_induction isSlugChar with
  | word w hw =>
    refine ⟨[], nofun, ?_⟩
    have hself : collapsed w = w := by simpa [collapsed] using collapsed_append hw []
    rw [runs_of_forall hw, List.append_nil]
    split
    next hnone => rw [hnone, List.dropWhile_nil, collapsed]; rfl
    next hne =>
      have hdrop := dropWhile_word hw hne []
      rw [List.append_nil] at hdrop
      rw [hdrop, hself, List.intercalate_singleton]
  | cut w c t hw hc ih =>
    obtain ⟨tail, htail, hrest⟩ := ih
    rw [runs_append_cons w t hc, runs_of_forall hw]
    split
    next hnone =>
      refine ⟨tail, htail, ?_⟩
      rw [hnone, List.nil_append, List.nil_append, List.dropWhile_cons_of_pos (by simp [hc]), hrest]
    next hne =>
      have hrun : collapsed (c :: t) = '-' :: (['-'].intercalate (runs isSlugChar t) ++ tail) := by
        rw [collapsed, if_neg (by simp [hc]), hrest]
      rw [dropWhile_word hw hne, collapsed_append hw, hrun, List.singleton_append]
      by_cases hlast : runs isSlugChar t = []
      · refine ⟨'-' :: tail, by simpa using htail, ?_⟩
        rw [hlast, List.intercalate_nil, List.nil_append, List.intercalate_singleton]
      · refine ⟨tail, htail, ?_⟩
        rw [List.intercalate_cons_of_ne_nil hlast, List.append_assoc, List.append_assoc, List.singleton_append]

/-- In front of its first word a collapsed text has at most a hyphen. -/
theorem exists_collapsed (s : List Char) : ∃ lead, (∀ c ∈ lead, c = '-') ∧
    collapsed s = lead ++ collapsed (s.dropWhile (!isSlugChar ·)) := by
  cases s with
  | nil => exact ⟨[], nofun, rfl⟩
  | cons c s =>
    cases hc : isSlugChar c with
    | true => exact ⟨[], nofun, by rw [List.dropWhile_cons_of_neg (by simp [hc]), List.nil_append]⟩
    | false =>
      refine ⟨['-'], by simp, ?_⟩
      rw [List.dropWhile_cons_of_pos (by simp [hc]), collapsed, if_neg (by simp [hc]), List.singleton_append]

/-- A slug is the text in lower case with its runs of other characters collapsed and no hyphens at its ends. -/
theorem slug_eq_collapsed (s : String) : (slug s).toList = trimBy (· = '-') (collapsed (lower s).toList) := by
  obtain ⟨lead, hlead, hcollapsed⟩ := exists_collapsed (lower s).toList
  obtain ⟨tail, htail, hwords⟩ := exists_collapsed_word (lower s).toList
  rw [hcollapsed, hwords, ← toList_slug, ← List.append_assoc]
  refine (trimBy_append (by simpa using hlead) (by simpa using htail) (fun c hc => ?_) fun c hc => ?_).symm
  · exact decide_eq_false (ne_hyphen ((isSlug_slug s).head hc))
  · exact decide_eq_false (ne_hyphen ((isSlug_slug s).last hc))

end Collapsed

/-- A slug is what the text in lower case becomes when its runs of other characters than small letters and digits are
collapsed into hyphens, and those at its ends are dropped. It consists of words with single hyphens between them, is its
own slug, and has all small letters and digits of the text in lower case, in their order. -/
theorem slug_forms (s : String) :
    (slug s).toList = trimBy (· = '-') (collapsed (lower s).toList) ∧ IsSlug (slug s).toList ∧ slug (slug s) = slug s ∧
    (slug s).toList.filter (· ≠ '-') = (lower s).toList.filter isSlugChar ∧
    (slug s = "" ↔ ∀ c ∈ (lower s).toList, isSlugChar c = false) :=
  ⟨slug_eq_collapsed s, isSlug_slug s, slug_eq_self_iff.2 (isSlug_slug s), filter_slug s, slug_eq_empty_iff⟩

/-- The Kelvin sign and the capital letter with a dot have letters of ASCII in their lower case. -/
example : slug "--İzmir, 300 \u212a!" = "i-zmir-300-k" := by decide +kernel

end NoteVault.Text
