import NoteVault.Proofs.Text.Digits
import NoteVault.Text.Case

/-!
Lower case of a part of a text. What stands around the part matters for capital sigmas only, and only for those whose
form the part does not decide by itself.
-/
namespace NoteVault.Text

/-- Whether the first character that counts is a letter with case. -/
def caseBehind (s : List Char) : Option Bool := (s.find? (!isCaseIgnorable ·)).map isCased

/-- Whether the last character that counts is a letter with case. -/
def caseBefore (s : List Char) : Option Bool := caseBehind s.reverse

theorem caseBehind_cons (c : Char) (s : List Char) :
    caseBehind (c :: s) = if isCaseIgnorable c then caseBehind s else some (isCased c) := by
  cases h : isCaseIgnorable c <;> simp [caseBehind, h]

theorem caseBehind_append (s t : List Char) : caseBehind (s ++ t) = (caseBehind s).or (caseBehind t) := by
  rw [caseBehind, List.find?_append, Option.map_or]
  rfl

theorem caseBefore_cons (c : Char) (s : List Char) : caseBefore (c :: s) = (caseBefore s).or (caseBehind [c]) := by
  rw [caseBefore, List.reverse_cons, caseBehind_append]
  rfl

theorem startsCased_eq (s : List Char) : startsCased s = (caseBehind s).getD false := by
  induction s with
  | nil => rfl
  | cons c s ih =>
    rw [caseBehind_cons]
    unfold startsCased at ih ⊢
    cases h : isCaseIgnorable c <;> simp [h, ih]

/-- Lower case of a part of a text, given whether letters with case stand before and behind it. -/
def lowerBetween (before behind : Bool) : List Char → List Char
  | [] => []
  | c :: rest =>
    (if c = 'Σ' then [if before && !(caseBehind rest).getD behind then 'ς' else 'σ'] else lowerChar c) ++
      lowerBetween ((caseBehind [c]).getD before) behind rest

theorem lowerFrom_eq (before : Bool) (s : List Char) : lowerFrom before s = lowerBetween before false s := by
  induction s generalizing before with
  | nil => rfl
  | cons c s ih =>
    rw [lowerFrom, lowerBetween, ih, startsCased_eq, caseBehind_cons]
    cases isCaseIgnorable c <;> rfl

theorem toList_lower (s : String) : (lower s).toList = lowerBetween false false s.toList := by
  rw [lower, String.toList_ofList, lowerFrom_eq]

/-- Each part of a text is put into lower case between the others. -/
theorem lowerBetween_append (before behind : Bool) (s t : List Char) : lowerBetween before behind (s ++ t) =
    lowerBetween before ((caseBehind t).getD behind) s ++ lowerBetween ((caseBefore s).getD before) behind t := by
  induction s generalizing before with
  | nil => rfl
  | cons c s ih =>
    rw [List.cons_append, lowerBetween, lowerBetween, ih, caseBehind_append, caseBefore_cons, Option.getD_or,
      Option.getD_or, List.append_assoc]

theorem length_lowerBetween (before behind before' behind' : Bool) (s : List Char) :
    (lowerBetween before behind s).length = (lowerBetween before' behind' s).length := by
  induction s generalizing before before' with
  | nil => rfl
  | cons c s ih =>
    rw [lowerBetween, lowerBetween, List.length_append, List.length_append,
      ih _ ((caseBehind [c]).getD before')]
    split <;> rfl

theorem lowerChar_ne_nil (c : Char) : lowerChar c ≠ [] := by
  unfold lowerChar
  split
  · simp
  split
  next cs h =>
    obtain rfl : cs = [105, 775] := by
      rw [lowerSequences, List.lookup_cons] at h
      split at h
      · exact (Option.some.inj h).symm
      · cases h
    simp
  · simp

theorem lower_eq_empty_iff {s : String} : lower s = "" ↔ s = "" := by
  rw [← String.toList_inj, toList_lower, ← String.toList_inj, String.toList_empty]
  cases s.toList with
  | nil => simp [lowerBetween]
  | cons c s =>
    simp only [lowerBetween, List.append_eq_nil_iff, reduceCtorEq, iff_false, not_and_or]
    left
    split
    · simp
    · exact lowerChar_ne_nil c

section Variants

/-- The same character, or the same letter of ASCII in either case. -/
def IsCaseVariant (c d : Char) : Prop := c = d ∨ c.isAlpha = true ∧ d.isAlpha = true ∧ c.toLower = d.toLower

instance (c d : Char) : Decidable (IsCaseVariant c d) := inferInstanceAs (Decidable (_ ∨ _))

theorem isAlpha_class {c : Char} (h : c.isAlpha = true) :
    c ≠ 'Σ' ∧ caseBehind [c] = some true ∧ lowerChar c = [c.toLower] := by
  have hascii : c.toNat < 128 := by
    delta Char.isAlpha Char.isUpper Char.isLower at h
    simp only [Bool.or_eq_true, Bool.and_eq_true, decide_eq_true_eq, UInt32.le_iff_toNat_le] at h
    obtain h | h := h
    · exact Nat.lt_of_le_of_lt h.2 (by decide)
    · exact Nat.lt_of_le_of_lt h.2 (by decide)
  have := of_ascii (p := fun c => !c.isAlpha || (c ≠ 'Σ' && caseBehind [c] = some true && lowerChar c = [c.toLower]))
    hascii (by decide +kernel)
  simpa [h, and_assoc] using this

theorem IsCaseVariant.class {c d : Char} (h : IsCaseVariant c d) :
    (c = 'Σ' ↔ d = 'Σ') ∧ caseBehind [c] = caseBehind [d] ∧ lowerChar c = lowerChar d := by
  obtain rfl | ⟨hc, hd, hlower⟩ := h
  · exact ⟨.rfl, rfl, rfl⟩
  · obtain ⟨hc, hcased, hclower⟩ := isAlpha_class hc
    obtain ⟨hd, hdcased, hdlower⟩ := isAlpha_class hd
    exact ⟨⟨fun h => absurd h hc, fun h => absurd h hd⟩, hcased.trans hdcased.symm, by rw [hclower, hdlower, hlower]⟩

theorem caseBehind_variant {s t : List Char} (h : List.Forall₂ IsCaseVariant s t) : caseBehind s = caseBehind t := by
  induction h with
  | nil => rfl
  | @cons c d s t hcd _ ih =>
    calc caseBehind (c :: s) = (caseBehind [c]).or (caseBehind s) := caseBehind_append [c] s
      _ = (caseBehind [d]).or (caseBehind t) := by rw [hcd.class.2.1, ih]
      _ = caseBehind (d :: t) := (caseBehind_append [d] t).symm

/-- The case of the letters of ASCII makes no difference. -/
theorem lowerBetween_variant {s t : List Char} (h : List.Forall₂ IsCaseVariant s t) (before behind : Bool) :
    lowerBetween before behind s = lowerBetween before behind t := by
  induction h generalizing before with
  | nil => rfl
  | cons hcd hrest ih =>
    obtain ⟨hsigma, hcased, hlower⟩ := hcd.class
    simp only [lowerBetween, hsigma, hcased, hlower, caseBehind_variant hrest, ih]

end Variants

section Sigmas

/-- The form of a capital sigma between two parts of a text is decided: by both of its neighbours that count, or by one
of them alone, if no letter with case stands before it or one stands behind it. -/
def DecidesSigma (x y : List Char) : Prop :=
  caseBefore x = some false ∨ caseBehind y = some true ∨ caseBefore x ≠ none ∧ caseBehind y ≠ none

/-- A text decides the form of all its capital sigmas. -/
def DecidesSigmas (s : List Char) : Prop := ∀ x y, s = x ++ 'Σ' :: y → DecidesSigma x y

theorem decidesSigmas_of_not_mem {s : List Char} (h : 'Σ' ∉ s) : DecidesSigmas s := by
  rintro x y rfl
  exact absurd (List.mem_append_right x List.mem_cons_self) h

/-- Between what has been decided nothing around a text has a part in its lower case. -/
theorem lowerBetween_of_decides {s : List Char} (h : DecidesSigmas s) (before behind : Bool) :
    lowerBetween before behind s = lowerBetween false false s := by
  have hpart : ∀ x t, s = x ++ t → lowerBetween ((caseBefore x).getD before) behind t =
      lowerBetween ((caseBefore x).getD false) false t := by
    intro x t
    induction t generalizing x with
    | nil => exact fun _ => rfl
    | cons c t ih =>
      intro hs
      have hrest := ih (x ++ [c]) (by simpa using hs)
      have hbefore : ∀ b, (caseBehind [c]).getD ((caseBefore x).getD b) = (caseBefore (x ++ [c])).getD b := fun b => by
        rw [← Option.getD_or, caseBefore, caseBefore, List.reverse_append, caseBehind_append]
        rfl
      rw [lowerBetween, lowerBetween, hbefore, hbefore, hrest]
      congr 1
      split
      next hc =>
        subst hc
        obtain hx | hy | ⟨hx, hy⟩ := h x t hs
        · simp [hx]
        · simp [hy]
        · obtain ⟨a, ha⟩ := Option.ne_none_iff_exists'.1 hx
          obtain ⟨b, hb⟩ := Option.ne_none_iff_exists'.1 hy
          simp [ha, hb]
      next => rfl
  exact hpart [] s rfl

/-- A part that decides its sigmas is found again, in lower case, in every text that holds it. -/
theorem lower_infix {query s : String} {part : List Char} (hsigmas : DecidesSigmas query.toList)
    (hpart : part <:+: s.toList)
    (hvariant : List.Forall₂ IsCaseVariant query.toList part) : (lower query).toList <:+: (lower s).toList := by
  obtain ⟨x, y, hs⟩ := hpart
  have hsame : ∀ before behind, lowerBetween before behind part = lowerBetween false false query.toList :=
    fun before behind => by rw [← lowerBetween_variant hvariant, lowerBetween_of_decides hsigmas]
  rw [toList_lower, toList_lower, ← hs, lowerBetween_append, lowerBetween_append, hsame]
  exact ⟨_, _, rfl⟩

/-- A sigma of another form makes another text. -/
theorem lowerBetween_ne {x y : List Char} {before behind before' behind' : Bool}
    (h : ((caseBefore x).getD before && !(caseBehind y).getD behind) ≠
      ((caseBefore x).getD before' && !(caseBehind y).getD behind')) :
    lowerBetween before behind (x ++ 'Σ' :: y) ≠ lowerBetween before' behind' (x ++ 'Σ' :: y) := by
  intro heq
  rw [lowerBetween_append, lowerBetween_append] at heq
  have hrest := (List.append_inj heq (length_lowerBetween ..)).2
  rw [lowerBetween, lowerBetween, if_pos rfl, if_pos rfl] at hrest
  have hform := (List.append_inj hrest rfl).1
  generalize ((caseBefore x).getD before && !(caseBehind y).getD behind) = form at h hform
  generalize ((caseBefore x).getD before' && !(caseBehind y).getD behind') = form' at h hform
  revert form form'
  decide

/-- A letter with case that is its own lower case, other than a given character. -/
theorem exists_letter_ne (c : Char) :
    ∃ a : Char, a ≠ c ∧ caseBehind [a] = some true ∧ ∀ before behind, lowerBetween before behind [a] = [a] := by
  by_cases hc : c = 'a'
  · exact ⟨'b', by simp [hc], by decide +kernel, fun _ _ => rfl⟩
  · exact ⟨'a', Ne.symm hc, by decide +kernel, fun _ _ => rfl⟩

theorem eq_of_infix_cons {α : Type} {a : α} {s t : List α} (hlength : s.length = t.length) (h : s <:+: a :: t)
    (hhead : s.head? ≠ some a) : s = t := by
  obtain h | h := List.infix_cons_iff.1 h
  · cases s with
    | nil => exact (List.length_eq_zero_iff.1 hlength.symm).symm
    | cons b s => exact absurd (congrArg some (List.cons_prefix_cons.1 h).1) hhead
  · exact h.sublist.eq_of_length hlength

/-- A sigma that is open towards its front becomes final behind one more letter. -/
theorem exists_missed_behind {query : String} {x y : List Char} (hquery : query.toList = x ++ 'Σ' :: y)
    (hx : caseBefore x = none) (hy : caseBehind y ≠ some true) :
    ∃ s : String, query.toList <:+: s.toList ∧ ¬ (lower query).toList <:+: (lower s).toList := by
  obtain ⟨a, hne, hcased, hlower⟩ := exists_letter_ne ((lowerBetween false false query.toList).headD ' ')
  have hletter : caseBefore [a] = some true := hcased
  refine ⟨String.ofList ([a] ++ query.toList), ?_, fun hfound => ?_⟩
  · rw [String.toList_ofList]
    exact (List.suffix_append _ _).isInfix
  · rw [toList_lower, toList_lower, String.toList_ofList, lowerBetween_append, hlower, hletter] at hfound
    have heq := eq_of_infix_cons (length_lowerBetween ..) hfound fun hhead =>
      hne (by simp [List.headD_eq_head?_getD, hhead])
    rw [hquery] at heq
    refine lowerBetween_ne ?_ heq
    cases h : caseBehind y with
    | none => simp [hx]
    | some b => cases b <;> simp_all

/-- A final sigma that is open towards its back is final no more in front of one more letter. -/
theorem exists_missed_before {query : String} {x y : List Char} (hquery : query.toList = x ++ 'Σ' :: y)
    (hx : caseBefore x = some true) (hy : caseBehind y = none) :
    ∃ s : String, query.toList <:+: s.toList ∧ ¬ (lower query).toList <:+: (lower s).toList := by
  obtain ⟨a, hne, hcased, hlower⟩ := exists_letter_ne ((lowerBetween false false query.toList).reverse.headD ' ')
  refine ⟨String.ofList (query.toList ++ [a]), ?_, fun hfound => ?_⟩
  · rw [String.toList_ofList]
    exact (List.prefix_append _ _).isInfix
  · rw [toList_lower, toList_lower, String.toList_ofList, lowerBetween_append, hlower, hcased, ← List.reverse_infix,
      List.reverse_append, List.reverse_singleton, List.singleton_append] at hfound
    have heq := eq_of_infix_cons (by simpa using length_lowerBetween ..) hfound fun hhead =>
      hne (by simp [List.headD_eq_head?_getD, hhead])
    rw [List.reverse_inj, hquery] at heq
    exact lowerBetween_ne (by simp [hx, hy]) heq

/-- What a text that leaves the form of a sigma open misses: itself, with one more letter at one of its ends. -/
theorem exists_missed {query : String} (h : ¬ DecidesSigmas query.toList) :
    ∃ s : String, query.toList <:+: s.toList ∧ ¬ (lower query).toList <:+: (lower s).toList := by
  simp only [DecidesSigmas, DecidesSigma, not_forall, not_or, not_and_or, not_not] at h
  obtain ⟨x, y, hquery, hbefore, hbehind, hopen⟩ := h
  cases hx : caseBefore x with
  | none => exact exists_missed_behind hquery hx hbehind
  | some b =>
    obtain rfl : b = true := by simpa [hx] using hbefore
    exact exists_missed_before hquery hx (hopen.resolve_left (by simp [hx]))

end Sigmas

end NoteVault.Text
