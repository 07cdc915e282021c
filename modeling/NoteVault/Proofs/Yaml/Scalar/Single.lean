import NoteVault.Proofs.Yaml.Scalar.Plain

/-!
Scalars between single quotes. Doubled quotes, blanks inside a line and runs of breaks are read back as
they were, as long as no break is one that is read as a line feed.
-/
namespace NoteVault.Yaml

open Form (isOrdinary isBlank allowsSingle singleBody spaces hasPair)

/-- What is known of a text that may be written between single quotes, and of every end of it. -/
structure IsSingle (s : List Char) : Prop where
  ordinary : ∀ c ∈ s, isOrdinary c = true
  blank_break : hasPair isBlank Form.isBreak s = false
  break_blank : hasPair Form.isBreak isBlank s = false
  kept : '\x85' ∉ s

theorem hasPair_append {p q : Char → Bool} {s t : List Char} (h : hasPair p q (s ++ t) = false) :
    hasPair p q t = false := by
  induction s with
  | nil => exact h
  | cons c s ih =>
    refine ih ?_
    cases hst : s ++ t with
    | nil => rfl
    | cons d rest =>
      rw [List.cons_append, hst, hasPair, Bool.or_eq_false_iff] at h
      exact h.2

theorem isSingle_of_allowsSingle {s : List Char} (h : allowsSingle s = true) (hk : '\x85' ∉ s) : IsSingle s := by
  simp only [allowsSingle, Form.needsDouble, Bool.and_eq_true, Bool.not_eq_true', Bool.or_eq_false_iff,
    Bool.not_eq_false', List.all_eq_true] at h
  exact ⟨h.1.2, h.1.1, h.2, hk⟩

theorem IsSingle.append {s t : List Char} (h : IsSingle (s ++ t)) : IsSingle t where
  ordinary c hm := h.ordinary c (List.mem_append_right _ hm)
  blank_break := hasPair_append h.blank_break
  break_blank := hasPair_append h.break_blank
  kept hm := h.kept (List.mem_append_right _ hm)

theorem IsSingle.ne_tab {s : List Char} (h : IsSingle s) {c : Char} (hc : c ∈ s) : c ≠ '\t' := by
  rintro rfl
  exact absurd (h.ordinary _ hc) (by decide)

/-- On the characters of such a text both notions of a break are one, and every break is kept. -/
theorem IsSingle.isBreak_eq {s : List Char} (h : IsSingle s) {c : Char} (hc : c ∈ s) :
    isBreak c = Form.isBreak c ∧ isKeptBreak c = Form.isBreak c := by
  have hr : c ≠ '\r' := by rintro rfl; exact absurd (h.ordinary _ hc) (by decide)
  have hk : c ≠ '\x85' := fun he => h.kept (he ▸ hc)
  simp [isBreak, Form.isBreak, isKeptBreak, hr, hk]

/-- Behind a run of breaks comes neither a break nor a blank. -/
theorem IsSingle.exists_breaks {s : List Char} (h : IsSingle s) :
    ∃ b t, s = b ++ t ∧ (∀ c ∈ b, Form.isBreak c = true) ∧ t.head?.any Form.isBreak = false ∧
      (b ≠ [] → t.head? ≠ some ' ') := by
  induction s with
  | nil => exact ⟨[], [], rfl, by simp, by simp, by simp⟩
  | cons c s ih =>
    by_cases hc : Form.isBreak c = true
    · obtain ⟨b, t, rfl, hb, ht, htb⟩ := ih (IsSingle.append (s := [c]) h)
      refine ⟨c :: b, t, rfl, by simpa [hc] using hb, ht, fun _ hblank => ?_⟩
      cases b with
      | nil =>
        cases t with
        | nil => simp at hblank
        | cons d t =>
          have := h.break_blank
          simp_all [hasPair, isBlank]
      | cons d b => exact htb (by simp) hblank
    · exact ⟨[], c :: s, rfl, by simp, by simpa using hc, by simp⟩

/-- The text behind the breaks of a run: the first line feed is doubled. -/
def writtenBreaks (behindBreak : Bool) : List Char → List Char
  | [] => []
  | c :: b => (if !behindBreak && c = '\n' then ['\n', c] else [c]) ++ b

theorem singleBody_breaks {n : Nat} {b t : List Char} (hb : ∀ c ∈ b, Form.isBreak c = true)
    (ht : t.head?.any Form.isBreak = false) (hne : b ≠ []) (behindBreak : Bool) :
    singleBody n behindBreak (b ++ t) = writtenBreaks behindBreak b ++ (spaces n ++ singleBody n false t) := by
  induction b generalizing behindBreak with
  | nil => exact absurd rfl hne
  | cons c b ih =>
    have hc := hb c (by simp)
    rw [List.cons_append, singleBody, if_pos hc]
    cases b with
    | nil =>
      have : singleBody n true t = spaces n ++ singleBody n false t := by
        cases t with
        | nil => simp [singleBody]
        | cons d t =>
          have hd : Form.isBreak d = false := by simpa using ht
          simp [singleBody, hd]
      simp [this, writtenBreaks]
    | cons d b =>
      rw [ih (fun x hx => hb x (List.mem_cons_of_mem _ hx)) (by simp)]
      simp [writtenBreaks]

theorem head?_singleBody {n : Nat} {s tail : List Char} (hs : s.head?.any Form.isBreak = false) :
    (singleBody n false s ++ '\'' :: tail).head? = some (s.head?.getD '\'') := by
  cases s with
  | nil => simp [singleBody]
  | cons c s =>
    have hc : Form.isBreak c = false := by simpa using hs
    rw [singleBody, if_neg (by simp [hc])]
    by_cases hq : c = '\'' <;> simp [hq]

namespace Cursor

variable {start : Mark} {n : Nat}

/-- The end of white space between quotes. -/
def endsGap (x : List Char) : Bool := !x.head?.any fun c => c = ' ' || c = '\t' || isBreak c

theorem quotedBreaks_run {c : Cursor} {b x : List Char} (h : c.rest = b ++ (spaces n ++ x))
    (hb : ∀ y ∈ b, isKeptBreak y = true) (hn : 0 < n) (hx : endsGap x = true) (fuel : Nat) (hf : b.length < fuel) :
    quotedBreaks start fuel c = .ok (b, c.skip (b.length + n)) := by
  induction fuel generalizing c b with
  | zero => omega
  | succ fuel ih =>
    have hgap : ∀ d ∈ spaces n, d = ' ' := fun d hd => (List.mem_replicate.1 hd).2
    cases b with
    | nil =>
      rw [List.nil_append] at h
      have hmark : c.atDocumentMark = false := by
        obtain ⟨m, rfl⟩ : ∃ m, n = m + 1 := ⟨n - 1, by omega⟩
        simp [atDocumentMark, h, spaces, List.replicate_succ]
      have hspan : c.span (fun x => x = ' ' || x = '\t') = (spaces n, c.skip n) := by
        have := span_eq (p := fun x => x = ' ' || x = '\t') h (fun d hd => by simp [hgap d hd]) (by
          cases x with
          | nil => rfl
          | cons y x => simp_all [endsGap])
        simpa [spaces] using this
      have hrest : (c.skip n).rest = x := by simpa [spaces] using rest_skip_append h
      rw [quotedBreaks, if_neg (by rw [hmark]; exact Bool.false_ne_true), hspan]
      dsimp only
      rw [if_neg]
      · simp
      · rw [peek_eq, hrest]
        cases x <;> simp_all [endsGap]
    | cons y b =>
      have hy := hb y (by simp)
      have hyb := isBreak_of_isKeptBreak hy
      have hne : y ≠ '-' ∧ y ≠ '.' ∧ y ≠ ' ' ∧ y ≠ '\t' := by
        refine ⟨?_, ?_, ?_, ?_⟩ <;> rintro rfl <;> exact absurd hy (by decide)
      have hmark : c.atDocumentMark = false := by simp [atDocumentMark, h, hne]
      have hspan : c.span (fun x => x = ' ' || x = '\t') = ([], c) := by
        have := span_eq (c := c) (p := fun x => x = ' ' || x = '\t') (s := []) h (by simp) (by simp [hne])
        simpa using this
      rw [List.cons_append] at h
      rw [quotedBreaks, if_neg (by rw [hmark]; exact Bool.false_ne_true), hspan]
      dsimp only
      rw [if_pos (by rw [peek_eq, h]; exact hyb), lineBreak_kept h hy]
      dsimp only
      rw [ih (rest_next_cons h) (fun z hz => hb z (List.mem_cons_of_mem _ hz)) (by simpa using hf)]
      rw [List.length_cons, show b.length + 1 + n = (b.length + n) + 1 by omega]
      rfl

/-- White space inside a line. -/
theorem quotedSpaces_blanks (start : Mark) {c : Cursor} {j : Nat} {x : List Char}
    (h : c.rest = List.replicate j ' ' ++ x)
    (hx : endsGap x = true) (hne : x ≠ []) : quotedSpaces start c = .ok (List.replicate j ' ', c.skip j) := by
  have hspan : c.span (fun x => x = ' ' || x = '\t') = (List.replicate j ' ', c.skip j) := by
    have := span_eq (p := fun x => x = ' ' || x = '\t') h (by simp) (by
      cases x with
      | nil => rfl
      | cons y x => simp_all [endsGap])
    simpa using this
  have hrest : (c.skip j).rest = x := by simpa using rest_skip_append h
  cases x with
  | nil => exact absurd rfl hne
  | cons y x =>
    have hy : isBreak y = false := by simp_all [endsGap]
    unfold quotedSpaces
    rw [hspan]
    dsimp only
    rw [peek_eq, hrest, List.head?_cons]
    dsimp only
    rw [if_neg (by rw [hy]; exact Bool.false_ne_true)]

/-- A run of breaks with the doubled line feed at its front. -/
theorem quotedSpaces_breaks (start : Mark) {c : Cursor} {b x : List Char}
    (h : c.rest = writtenBreaks false b ++ (spaces n ++ x)) (hb : ∀ y ∈ b, isKeptBreak y = true) (hne : b ≠ [])
    (hn : 0 < n) (hx : endsGap x = true) :
    quotedSpaces start c = .ok (b, c.skip ((writtenBreaks false b).length + n)) := by
  cases b with
  | nil => exact absurd rfl hne
  | cons y b =>
    have hy := hb y (by simp)
    obtain ⟨w, hw⟩ : ∃ w, writtenBreaks false (y :: b) = y :: w ∧ (∀ z ∈ w, isKeptBreak z = true) ∧
        foldBreaks [y] w = y :: b := by
      by_cases hf : y = '\n'
      · exact ⟨y :: b, by simp [writtenBreaks, hf], hb, by simp [foldBreaks, hf]⟩
      · exact ⟨b, by simp [writtenBreaks, hf], fun z hz => hb z (List.mem_cons_of_mem _ hz), by simp [foldBreaks, hf]⟩
    obtain ⟨hw, hkept, hfold⟩ := hw
    rw [hw, List.cons_append] at h
    have hyne : y ≠ ' ' ∧ y ≠ '\t' := by
      constructor <;> rintro rfl <;> exact absurd hy (by decide)
    have hspan : c.span (fun x => x = ' ' || x = '\t') = ([], c) := by
      have := span_eq (c := c) (p := fun x => x = ' ' || x = '\t') (s := []) h (by simp) (by simp [hyne])
      simpa using this
    have hnext := rest_next_cons h
    unfold quotedSpaces
    rw [hspan]
    dsimp only
    rw [peek_eq, h, List.head?_cons]
    dsimp only
    rw [if_pos (isBreak_of_isKeptBreak hy), lineBreak_kept h hy]
    dsimp only
    rw [quotedBreaks_run hnext hkept hn hx _ (by rw [hnext, List.length_append]; omega)]
    dsimp only [bind, Except.bind]
    rw [hfold, hw, List.length_cons, show w.length + 1 + n = (w.length + n) + 1 by omega]
    rfl

theorem quotedStep_gap {double : Bool} {c after : Cursor} {x : Char} {cs t : List Char} (h : c.rest = x :: t)
    (hx : x = ' ' ∨ x = '\t' ∨ isBreak x) (hs : quotedSpaces start c = .ok (cs, after)) :
    quotedStep double start c = .ok (some cs, after) := by
  rw [quotedStep, peek_eq, h, List.head?_cons]
  dsimp only
  rw [if_pos hx, hs]
  rfl

theorem singleBody_blanks (j : Nat) (t : List Char) :
    singleBody n false (List.replicate j ' ' ++ t) = List.replicate j ' ' ++ singleBody n false t := by
  induction j with
  | zero => rfl
  | succ j ih =>
    rw [List.replicate_succ, List.cons_append, singleBody, if_neg (by decide), ih]
    rfl

theorem length_le_singleBody (n : Nat) (b : Bool) (s : List Char) : s.length ≤ (singleBody n b s).length := by
  induction s generalizing b with
  | nil => exact Nat.zero_le _
  | cons c s ih =>
    rw [singleBody]
    split
    · have := ih true
      split <;> simp <;> omega
    · have := ih false
      simp only [List.length_append, List.length_cons]
      have : 1 ≤ (if c = '\'' then ['\'', '\''] else [c]).length := by split <;> simp
      omega

/-- One turn between quotes reads a run of a text, and leaves the written form of what follows it. -/
def ReadsRun (double : Bool) (start : Mark) (write : List Char → List Char) (tail : List Char) (c : Cursor)
    (s : List Char) : Prop :=
  ∃ run t k, s = run ++ t ∧ run ≠ [] ∧ quotedStep double start c = .ok (some run, c.skip k) ∧
    (c.skip k).rest = write t ++ tail ∧ (write s).length = k + (write t).length

/-- If each turn reads a run of the text, all of it is read up to the closing quote. -/
theorem quotedFrom_runs {double : Bool} (start : Mark) (write : List Char → List Char) (P : List Char → Prop)
    {tail : List Char} (hnil : write [] = []) (hsuffix : ∀ {run t}, P (run ++ t) → P t)
    (hclose : ∀ {c : Cursor}, c.rest = tail → quotedStep double start c = .ok (none, c.next))
    (hruns : ∀ {c : Cursor} {s}, P s → s ≠ [] → c.rest = write s ++ tail → ReadsRun double start write tail c s)
    (fuel : Nat) {c : Cursor} {s : List Char} (hs : P s) (h : c.rest = write s ++ tail) (hf : s.length < fuel) :
    quotedFrom double start fuel c = .ok (s, c.skip ((write s).length + 1)) := by
  induction fuel generalizing c s with
  | zero => omega
  | succ fuel ih =>
    rw [quotedFrom]
    by_cases hs' : s = []
    · subst hs'
      rw [hnil] at h ⊢
      rw [hclose h]
      rfl
    · obtain ⟨run, t, k, rfl, hne, hstep, hafter, hlength⟩ := hruns hs hs' h
      have hpos := List.length_pos_iff.2 hne
      rw [List.length_append] at hf
      rw [hstep]
      dsimp only [bind, Except.bind]
      rw [ih (hsuffix hs) hafter (by omega), hlength, ← skip_add, Nat.add_assoc]

section Turns

variable {tail : List Char} (hn : 0 < n)

theorem quotedStep_single_close {c : Cursor} (ht : tail.head? ≠ some '\'') (h : c.rest = '\'' :: tail) :
    quotedStep false start c = .ok (none, c.next) := by
  have htail : tail[0]? ≠ some '\'' := by rwa [← List.head?_eq_getElem?]
  rw [quotedStep, peek_eq, h, List.head?_cons]
  dsimp only
  rw [if_neg (by decide), if_neg (by decide), if_pos rfl, if_neg (by simpa [h] using htail)]

/-- A gap ends where the text goes on with something that is no white space, or where it is closed. -/
theorem endsGap_singleBody {t : List Char} (hs : IsSingle t) (hbreak : t.head?.any Form.isBreak = false)
    (hblank : t.head? ≠ some ' ') : endsGap (singleBody n false t ++ '\'' :: tail) = true := by
  rw [endsGap, head?_singleBody hbreak]
  cases t with
  | nil => rfl
  | cons d t =>
    have hd := hs.isBreak_eq (c := d) (by simp)
    simp_all [hs.ne_tab (c := d) (by simp)]

include hn in
/-- A run of breaks, with the indentation of the line behind it. -/
theorem readsRun_breaks {c : Cursor} {d : Char} {s : List Char} (hs : IsSingle (d :: s)) (hd : Form.isBreak d = true)
    (h : c.rest = singleBody n false (d :: s) ++ '\'' :: tail) :
    ReadsRun false start (singleBody n false) ('\'' :: tail) c (d :: s) := by
  obtain ⟨b, t, hst, hb, htb, htblank⟩ := hs.exists_breaks
  have hne : b ≠ [] := by
    rintro rfl
    rw [List.nil_append] at hst
    rw [← hst] at htb
    simp [hd] at htb
  have hkept : ∀ y ∈ b, isKeptBreak y = true := fun y hy => by
    rw [(hs.isBreak_eq (hst ▸ List.mem_append_left _ hy)).2]
    exact hb y hy
  have hbody := singleBody_breaks (n := n) hb htb hne false
  obtain ⟨y, hy⟩ : ∃ y, writtenBreaks false b = d :: y := by
    cases b with
    | nil => exact absurd rfl hne
    | cons e b =>
      obtain rfl : d = e := (List.cons.inj hst).1
      by_cases he : d = '\n' <;> simp [writtenBreaks, he]
  rw [hst, hbody, List.append_assoc, List.append_assoc] at h
  have hspaces := quotedSpaces_breaks start h hkept hne hn (endsGap_singleBody (hst ▸ hs).append htb (htblank hne))
  refine ⟨b, t, _, hst, hne, quotedStep_gap (by rw [h, hy]; rfl) (.inr (.inr ?_)) hspaces, ?_, ?_⟩
  · rwa [(hs.isBreak_eq (by simp)).1]
  · rw [skip_add]
    simpa [spaces] using rest_skip_append (rest_skip_append h)
  · rw [hst, hbody]
    simp [spaces, Nat.add_assoc]

/-- A run of blanks; its line goes on behind it. -/
theorem readsRun_blanks {c : Cursor} {s : List Char} (hs : IsSingle (' ' :: s))
    (h : c.rest = singleBody n false (' ' :: s) ++ '\'' :: tail) :
    ReadsRun false start (singleBody n false) ('\'' :: tail) c (' ' :: s) := by
  obtain ⟨i, t, hst, htblank⟩ := exists_blanks s
  have htb : t.head?.any Form.isBreak = false := by
    cases t with
    | nil => rfl
    | cons e t =>
      have hpair := hs.blank_break
      rw [hst, List.replicate_succ', List.append_assoc] at hpair
      simpa [hasPair, isBlank] using (Bool.or_eq_false_iff.1 (hasPair_append hpair)).1
  rw [hst, singleBody_blanks, List.append_assoc] at h
  have hspaces := quotedSpaces_blanks start h (endsGap_singleBody (hst ▸ hs).append htb htblank) (by simp)
  refine ⟨_, t, _, hst, by simp, quotedStep_gap (by rw [h, List.replicate_succ]; rfl) (.inl rfl) hspaces, ?_, ?_⟩
  · simpa using rest_skip_append h
  · rw [hst, singleBody_blanks, List.length_append, List.length_replicate]

/-- A single character, which is written twice if it is a quote. -/
theorem readsRun_sign {c : Cursor} {d : Char} {s : List Char} (hs : IsSingle (d :: s)) (hd : Form.isBreak d = false)
    (hblank : d ≠ ' ') (h : c.rest = singleBody n false (d :: s) ++ '\'' :: tail) :
    ReadsRun false start (singleBody n false) ('\'' :: tail) c (d :: s) := by
  have hgap : ¬ (d = ' ' ∨ d = '\t' ∨ isBreak d) := by
    rw [(hs.isBreak_eq (by simp)).1]
    simp [hblank, hd, hs.ne_tab (c := d) (by simp)]
  have hbody : singleBody n false (d :: s) = (if d = '\'' then ['\'', '\''] else [d]) ++ singleBody n false s := by
    rw [singleBody, if_neg (by rw [hd]; exact Bool.false_ne_true), if_neg Bool.false_ne_true, List.nil_append]
  rw [hbody, List.append_assoc] at h
  refine ⟨[d], s, (if d = '\'' then ['\'', '\''] else [d]).length, rfl, List.cons_ne_nil _ _, ?_, rest_skip_append h,
    ?_⟩
  · rw [quotedStep, peek_eq, h]
    by_cases hq : d = '\''
    · subst hq
      rw [if_pos rfl, List.cons_append, List.head?_cons]
      dsimp only
      rw [if_neg (by decide), if_neg (by decide), if_pos rfl, if_pos (by simp [h])]
      rfl
    · rw [if_neg hq, List.cons_append, List.head?_cons]
      dsimp only
      rw [if_neg hgap, if_neg (by decide), if_neg hq]
      rfl
  · rw [hbody, List.length_append]

include hn in
theorem readsRun_single {c : Cursor} {s : List Char} (hs : IsSingle s) (hne : s ≠ [])
    (h : c.rest = singleBody n false s ++ '\'' :: tail) :
    ReadsRun false start (singleBody n false) ('\'' :: tail) c s := by
  obtain ⟨d, s, rfl⟩ := List.exists_cons_of_ne_nil hne
  by_cases hd : Form.isBreak d = true
  · exact readsRun_breaks hn hs hd h
  by_cases hblank : d = ' '
  · subst hblank
    exact readsRun_blanks hs h
  · exact readsRun_sign hs (by simpa using hd) hblank h

end Turns

/-- A text between single quotes. -/
theorem quoted_single {c : Cursor} {s tail : List Char} (h : c.rest = Form.body n .single s ++ tail)
    (hs : IsSingle s) (hn : 0 < n) (ht : tail.head? ≠ some '\'') :
    c.quoted false = .ok (s, c.skip (Form.body n .single s).length) := by
  have hbody : Form.body n .single s = '\'' :: (singleBody n false s ++ ['\'']) := rfl
  rw [hbody, List.cons_append, List.append_assoc] at h
  have hlen := length_le_singleBody n false s
  have hread := quotedFrom_runs c.mark (singleBody n false) IsSingle rfl IsSingle.append (quotedStep_single_close ht)
    (readsRun_single hn) (c.rest.length + 1) hs (rest_next_cons h) (by rw [h]; simp; omega)
  rw [quoted, hread, hbody]
  simp [skip]

end Cursor

end NoteVault.Yaml
