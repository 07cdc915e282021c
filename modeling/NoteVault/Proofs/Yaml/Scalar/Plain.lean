import NoteVault.Proofs.Yaml.Cursor
import NoteVault.Yaml.Form
import NoteVault.Yaml.Token.Scalar

/-!
Plain scalars. A text that may be written plain is read back as it is, whether a colon follows it or the
line ends behind it and the next line is not indented further.
-/
namespace NoteVault.Yaml

open Form (isOrdinary allowsPlain hasInnerSign startsWithSign spaceFollows)

theorem isFlat_of_isOrdinary {c : Char} (h : isOrdinary c = true) (hb : Form.isBreak c = false) :
    isFlat c = true ∧ endsWord (some c) = decide (c = ' ') := by
  have h9 : c ≠ '\t' := by rintro rfl; exact absurd h (by decide)
  have h13 : c ≠ '\r' := by rintro rfl; exact absurd h (by decide)
  have hf : c ≠ '\ufeff' := by rintro rfl; exact absurd h (by decide)
  have hy : isBreak c = false := by
    simp only [Form.isBreak, Bool.or_eq_false_iff, decide_eq_false_iff_not] at hb
    simp [isBreak, hb, h13]
  simp [isFlat, endsWord, hy, hf, h9]

theorem isSpace_of_endsWord {c : Char} (h : endsWord (some c) = true) : Form.isSpace c = true := by
  simp only [endsWord, isBreak, Form.isSpace, Form.isBreak, Bool.or_eq_true, decide_eq_true_eq] at h ⊢
  tauto

/-- What is known of a text that may be written plain, and of what is left of it behind a blank. -/
structure IsPlain (s : List Char) : Prop where
  flat : ∀ c ∈ s, isFlat c = true
  words : ∀ c ∈ s, endsWord (some c) = decide (c = ' ')
  inner : hasInnerSign s = false
  last : s.getLast? ≠ some ' '

theorem isPlain_of_allowsPlain {s : List Char} (h : allowsPlain s = true) : IsPlain s := by
  simp only [allowsPlain, Form.allowsSingle, Form.needsDouble, Form.hasBreak, Bool.and_eq_true,
    Bool.not_eq_true', Bool.or_eq_false_iff, Bool.not_eq_false', List.all_eq_true, List.any_eq_false] at h
  obtain ⟨⟨⟨⟨⟨⟨⟨-, hord⟩, -⟩, hb⟩, -⟩, hlast⟩, -⟩, hinner⟩ := h
  have hc : ∀ c ∈ s, isFlat c = true ∧ endsWord (some c) = decide (c = ' ') := fun c hm =>
    isFlat_of_isOrdinary (hord c hm) (by simpa using hb c hm)
  refine ⟨fun c hm => (hc c hm).1, fun c hm => (hc c hm).2, hinner, fun he => ?_⟩
  simp [he, Form.isBlank] at hlast

theorem hasInnerSign_append {s t : List Char} (h : hasInnerSign (s ++ t) = false) : hasInnerSign t = false := by
  induction s with
  | nil => exact h
  | cons c s ih =>
    simp only [List.cons_append, hasInnerSign, Bool.or_eq_false_iff] at h
    exact ih h.2

theorem IsPlain.append {s t : List Char} (h : IsPlain (s ++ t)) (ht : t ≠ []) : IsPlain t where
  flat c hm := h.flat c (List.mem_append_right _ hm)
  words c hm := h.words c (List.mem_append_right _ hm)
  inner := hasInnerSign_append h.inner
  last := by
    have := h.last
    rwa [List.getLast?_append_of_ne_nil _ ht] at this

/-- Blanks in front of a text. -/
theorem exists_blanks (s : List Char) : ∃ i t, ' ' :: s = List.replicate (i + 1) ' ' ++ t ∧ t.head? ≠ some ' ' := by
  induction s with
  | nil => exact ⟨0, [], rfl, by simp⟩
  | cons c s ih =>
    by_cases hc : c = ' '
    · obtain ⟨i, t, hs, ht⟩ := ih
      exact ⟨i + 1, t, by rw [hc, hs, List.replicate_succ (n := i + 1), List.cons_append], ht⟩
    · exact ⟨0, c :: s, rfl, by simpa using hc⟩

/-- A word begins here, and no comment. -/
structure StartsWord (s : List Char) : Prop where
  ne_nil : s ≠ []
  no_blank : s.head? ≠ some ' '
  no_comment : s.head? ≠ some '#'

/-- What stands behind blanks in a plain text begins with a word: the text does not end with a blank, and a number sign
behind one would have a meaning. -/
theorem IsPlain.startsWord {w y : List Char} {i : Nat} (hs : IsPlain (w ++ (List.replicate (i + 1) ' ' ++ y)))
    (hy : y.head? ≠ some ' ') : StartsWord y where
  ne_nil := by
    rintro rfl
    refine hs.last ?_
    simp [List.replicate_succ']
  no_blank := hy
  no_comment := by
    intro hhash
    have hinner := hs.inner
    rw [List.replicate_succ', List.append_assoc, ← List.append_assoc] at hinner
    have hsign := hasInnerSign_append hinner
    simp [hasInnerSign, Form.isSpace, hhash] at hsign

/-- A plain text is a word, behind which it ends or goes on after blanks. -/
theorem IsPlain.exists_word {s : List Char} (hs : IsPlain s) (hstart : StartsWord s) :
    ∃ w x, s = w ++ x ∧ w ≠ [] ∧ (∀ c ∈ w, endsWord (some c) = false) ∧
      (x = [] ∨ ∃ i y, x = List.replicate (i + 1) ' ' ++ y ∧ IsPlain y ∧ StartsWord y) := by
  have hsplit : s.takeWhile (· ≠ ' ') ++ s.dropWhile (· ≠ ' ') = s := List.takeWhile_append_dropWhile
  refine ⟨_, _, hsplit.symm, fun hnone => ?_, fun c hc => ?_, ?_⟩
  · cases s with
    | nil => exact hstart.ne_nil rfl
    | cons d rest =>
      have hd : d ≠ ' ' := fun hd => hstart.no_blank (by rw [hd]; rfl)
      simp [hd] at hnone
  · rw [hs.words c (hsplit ▸ List.mem_append_left _ hc)]
    simpa using List.all_eq_true.1 (List.all_takeWhile (p := (· ≠ ' ')) (l := s)) c hc
  · cases hrest : s.dropWhile (· ≠ ' ') with
    | nil => exact .inl rfl
    | cons d rest =>
      have hd : d = ' ' := by
        have hhead := List.head?_dropWhile_not (· ≠ ' ') s
        rw [hrest] at hhead
        simpa using hhead
      obtain ⟨i, y, hblanks, hy⟩ := exists_blanks rest
      rw [hrest, hd, hblanks] at hsplit
      have hword : StartsWord y := (hsplit ▸ hs).startsWord hy
      refine .inr ⟨i, y, by rw [hd, hblanks], ?_, hword⟩
      rw [← hsplit, ← List.append_assoc] at hs
      exact hs.append hword.ne_nil

namespace Cursor

/-- A run of a plain scalar is a word of its text, if a sign or white space ends it. -/
theorem plainRun_word {w x tail : List Char} (hw : ∀ c ∈ w, endsWord (some c) = false)
    (hsign : hasInnerSign (w ++ x) = false)
    (hend : ∃ y t, x ++ tail = y :: t ∧ endsPlainRun false y t.head? = true) :
    plainRun false (w ++ (x ++ tail)) = w := by
  induction w with
  | nil =>
    obtain ⟨y, t, ht, hy⟩ := hend
    rw [List.nil_append, ht, plainRun, if_pos hy]
  | cons c w ih =>
    simp only [List.cons_append, hasInnerSign, Bool.or_eq_false_iff] at hsign
    have hc : endsPlainRun false c (w ++ (x ++ tail)).head? = false := by
      have hword := hw c (by simp)
      by_cases h : c = ':'
      · -- A colon inside the text is followed by a character of the text that is no white space.
        have hs : spaceFollows (w ++ x) = false := by simpa [h] using hsign.1.1
        rw [← List.append_assoc]
        cases hwx : w ++ x with
        | nil => simp [hwx, spaceFollows] at hs
        | cons d rest =>
          have hd : endsWord (some d) = false := by
            rw [hwx] at hs
            by_contra hd
            simp [spaceFollows, isSpace_of_endsWord (by simpa using hd)] at hs
          simp [endsPlainRun, hword, hd]
      · simp [endsPlainRun, hword, h]
    have hr := ih (fun d hd => hw d (List.mem_cons_of_mem _ hd)) hsign.2
    rw [List.cons_append, plainRun, if_neg (by rw [hc]; exact Bool.false_ne_true), hr]

/-- Blanks between two words of a line. -/
theorem plainSpaces_blanks {c : Cursor} {j : Nat} {t : List Char} (h : c.rest = List.replicate j ' ' ++ t)
    (ht : t.head? ≠ some ' ') (hb : t.head?.any isBreak = false) :
    c.plainSpaces = (List.replicate j ' ', false, c.skip j) := by
  have hspan : c.span (· = ' ') = (List.replicate j ' ', c.skip j) := by
    have := span_eq (p := (· = ' ')) h (by simp) (by cases t <;> simp_all)
    simpa using this
  have hrest : (c.skip j).rest = t := by simpa using rest_skip_append h
  unfold plainSpaces
  rw [hspan]
  dsimp only
  rw [if_neg (by rw [peek_eq, hrest, hb]; exact Bool.false_ne_true)]

/-- Where a plain scalar stops. -/
def stopsPlain (indent : Int) (p : List Char × Bool × Cursor) : Bool :=
  p.1.isEmpty || p.2.2.at? '#' || (p.2.2.column : Int) < indent

/-- One turn of the reader takes a word, and stops or goes on behind the white space that follows it. -/
theorem plainFrom_word {indent : Int} {fuel : Nat} {blanks acc w : List Char} {stop : Mark} {c : Cursor} {b : Bool}
    (hhash : c.rest.head? ≠ some '#') (hword : plainRun false c.rest = w) (hne : w ≠ []) :
    let p := (c.skip w.length).plainSpaces
    let read : PlainScan := ⟨acc ++ blanks ++ w, (c.skip w.length).mark, p.2.2, p.2.1⟩
    plainFrom false indent (fuel + 1) blanks ⟨acc, stop, c, b⟩ =
      if stopsPlain indent p then read else plainFrom false indent fuel p.1 read := by
  intro p read
  rw [plainFrom, if_neg (by simpa using hhash)]
  simp only [hword]
  rw [if_neg (by simpa using hne)]
  rfl

/-- Behind a word and blanks of a plain text the line goes on with the next word. -/
theorem plainSpaces_word {c : Cursor} {i : Nat} {y tail : List Char}
    (h : c.rest = List.replicate (i + 1) ' ' ++ (y ++ tail))
    (hy : IsPlain y) (hstart : StartsWord y) : c.plainSpaces = (List.replicate (i + 1) ' ', false, c.skip (i + 1)) := by
  cases y with
  | nil => exact absurd rfl hstart.ne_nil
  | cons e y =>
    have hflat := hy.flat e List.mem_cons_self
    simp only [isFlat, Bool.and_eq_true, Bool.not_eq_true'] at hflat
    exact plainSpaces_blanks h hstart.no_blank (by simpa using hflat.1)

theorem plainFrom_text {indent : Int} (fuel : Nat) (blanks acc : List Char) (stop : Mark) {c : Cursor} {b : Bool}
    {s tail : List Char} (h : c.rest = s ++ tail) (hs : IsPlain s) (hstart : StartsWord s)
    (hcol : indent ≤ c.column + 1) (hrun : ∃ y t, tail = y :: t ∧ endsPlainRun false y t.head? = true)
    (hstop : stopsPlain indent (c.skip s.length).plainSpaces = true) (hfuel : s.length ≤ fuel) :
    plainFrom false indent fuel blanks ⟨acc, stop, c, b⟩ =
      ⟨acc ++ blanks ++ s, (c.skip s.length).mark, (c.skip s.length).plainSpaces.2.2,
        (c.skip s.length).plainSpaces.2.1⟩ := by
  induction fuel generalizing blanks acc stop c b s with
  | zero => exact absurd (List.length_eq_zero_iff.1 (Nat.le_zero.1 hfuel)) hstart.ne_nil
  | succ fuel ih =>
    have hhash : c.rest.head? ≠ some '#' := by
      rw [h, List.head?_append_of_ne_nil _ hstart.ne_nil]
      exact hstart.no_comment
    obtain ⟨w, x, rfl, hne, hwords, hx⟩ := hs.exists_word hstart
    have hend : ∃ y t, x ++ tail = y :: t ∧ endsPlainRun false y t.head? = true := by
      obtain rfl | ⟨i, y, rfl, -⟩ := hx
      · exact hrun
      · exact ⟨' ', List.replicate i ' ' ++ y ++ tail, by rw [List.replicate_succ]; rfl,
          by simp [endsPlainRun, endsWord]⟩
    rw [List.append_assoc] at h
    have hword : plainRun false c.rest = w := h ▸ plainRun_word hwords hs.inner hend
    rw [plainFrom_word hhash hword hne]
    have hafter : (c.skip w.length).rest = x ++ tail := rest_skip_append h
    obtain rfl | ⟨i, y, rfl, hy, hystart⟩ := hx
    · rw [List.append_nil] at hstop ⊢
      exact if_pos hstop
    · -- Blanks follow, and behind them the next word.
      rw [List.append_assoc] at hafter
      have hspaces := plainSpaces_word hafter hy hystart
      have hrest : ((c.skip w.length).skip (i + 1)).rest = y ++ tail := by simpa using rest_skip_append hafter
      have hcolumn : indent ≤ ((c.skip w.length).skip (i + 1)).column := by
        have hmark := mark_skip_flat (c := c) (s := w ++ List.replicate (i + 1) ' ') (t := y ++ tail) (by rw [h]; simp)
          fun e he => hs.flat e (by rw [← List.append_assoc]; exact List.mem_append_left _ he)
        rw [List.length_append, List.length_replicate, skip_add] at hmark
        rw [column, hmark]
        have hcol' : indent ≤ (c.mark.column : Int) + 1 := hcol
        push_cast
        omega
      have hskip : ((c.skip w.length).skip (i + 1)).skip y.length =
          c.skip (w ++ (List.replicate (i + 1) ' ' ++ y)).length := by
        rw [← skip_add, ← skip_add]
        simp [Nat.add_assoc]
      have hgoes : stopsPlain indent (c.skip w.length).plainSpaces = false := by
        rw [hspaces, stopsPlain, at?_eq, hrest, List.head?_append_of_ne_nil _ hystart.ne_nil]
        simp [hystart.no_comment, hcolumn]
      have hlength : y.length ≤ fuel := by
        simp only [List.length_append, List.length_replicate] at hfuel
        omega
      rw [if_neg (by rw [hgoes]; exact Bool.false_ne_true), hspaces,
        ih _ _ _ hrest hy hystart (by omega) (by rw [hskip]; exact hstop) hlength, hskip]
      simp

/-- The text of a plain scalar in front of something that ends it. -/
theorem plain_text {indent : Int} {c : Cursor} {s tail : List Char} (h : c.rest = s ++ tail)
    (hs : allowsPlain s = true) (hne : s ≠ []) (hcol : indent ≤ c.column + 1)
    (hrun : ∃ y t, tail = y :: t ∧ endsPlainRun false y t.head? = true)
    (hstop : stopsPlain indent (c.skip s.length).plainSpaces = true) :
    c.plain false indent = ⟨s, (c.skip s.length).mark, (c.skip s.length).plainSpaces.2.2,
      (c.skip s.length).plainSpaces.2.1⟩ := by
  have hstart : StartsWord s := by
    simp only [allowsPlain, Bool.and_eq_true, Bool.not_eq_true'] at hs
    obtain ⟨⟨⟨⟨-, hb⟩, -⟩, hsign⟩, -⟩ := hs
    cases s with
    | nil => exact absurd rfl hne
    | cons d rest =>
      refine ⟨hne, ?_, ?_⟩ <;> rintro ⟨rfl⟩
      · simp [Form.isBlank] at hb
      · simp [startsWithSign] at hsign
  have hlen : s.length ≤ c.rest.length + 1 := by rw [h, List.length_append]; omega
  unfold plain
  simpa using plainFrom_text (c.rest.length + 1) [] [] c.mark (b := false) h
    (isPlain_of_allowsPlain hs) hstart hcol hrun hstop hlen

end Cursor

/-- A document mark at the beginning of a line. -/
def startsDocument (s : List Char) : Bool := s.take 3 = ['-', '-', '-'] || s.take 3 = ['.', '.', '.']

/-- A token begins here, or the text ends. -/
structure StartsToken (r : List Char) : Prop where
  no_blank : r.head? ≠ some ' '
  no_break : r.head?.any isBreak = false
  no_comment : r.head? ≠ some '#'
  no_order_mark : r.head? ≠ some '\ufeff'

/-- What may follow at the beginning of the next line: a token at a column, which is no document mark. -/
structure Follows (k : Nat) (r : List Char) : Prop extends StartsToken r where
  no_mark : k = 0 → startsDocument r = false

namespace Cursor

theorem atDocumentMark_blanks {c : Cursor} {k : Nat} {r : List Char} (h : c.rest = List.replicate k ' ' ++ r)
    (hr : Follows k r) : c.atDocumentMark = false := by
  unfold atDocumentMark
  rw [h]
  cases k with
  | zero =>
    have := hr.no_mark rfl
    unfold startsDocument at this
    simp [this]
  | succ k => simp [List.replicate_succ]

theorem plainBreaks_blanks {c : Cursor} {k : Nat} {r : List Char} (h : c.rest = List.replicate k ' ' ++ r)
    (hblank : r.head? ≠ some ' ') (hbreak : r.head?.any isBreak = false) (fuel : Nat) (hfuel : k ≤ fuel) :
    plainBreaks fuel c = (some [], c.skip k) := by
  induction fuel generalizing c k with
  | zero =>
    obtain rfl : k = 0 := by omega
    rfl
  | succ fuel ih =>
    cases k with
    | zero =>
      rw [List.replicate_zero, List.nil_append] at h
      rw [plainBreaks, peek_eq, h]
      cases r with
      | nil => rfl
      | cons x t =>
        have hx : x ≠ ' ' := fun he => hblank (by rw [he]; rfl)
        rw [List.head?_cons]
        split
        next he => exact absurd (Option.some.inj he) hx
        next y _ he =>
          obtain rfl := Option.some.inj he
          rw [if_neg (by simpa using hbreak), skip_zero]
        next he => exact absurd he (Option.some_ne_none x)
    | succ k =>
      rw [List.replicate_succ, List.cons_append] at h
      rw [plainBreaks, peek_eq, h, List.head?_cons]
      exact ih (rest_next_cons h) (by omega)

/-- The end of a line and the indentation of the next one. -/
theorem plainSpaces_line {c : Cursor} {k : Nat} {r : List Char} (h : c.rest = '\n' :: (List.replicate k ' ' ++ r))
    (hr : Follows k r) : c.plainSpaces = ([' '], true, c.skip (k + 1)) := by
  have hnext := rest_next_cons h
  have hspan : c.span (· = ' ') = ([], c) := by
    have := span_eq (c := c) (p := (· = ' ')) (s := []) h (by simp) (by simp)
    simpa using this
  unfold plainSpaces
  rw [hspan]
  dsimp only
  rw [if_pos (by rw [peek_eq, h]; rfl), lineBreak_feed h]
  dsimp only
  rw [if_neg (by rw [atDocumentMark_blanks hnext hr]; exact Bool.false_ne_true),
    plainBreaks_blanks hnext hr.no_blank hr.no_break _ (by rw [hnext]; simp)]
  rfl

/-- A plain key, and the colon behind it. -/
theorem plain_key (indent : Int) {c : Cursor} {s t : List Char} (h : c.rest = s ++ ':' :: t)
    (hs : allowsPlain s = true) (hne : s ≠ []) (hcol : indent ≤ c.column + 1) (ht : endsWord t.head? = true) :
    c.plain false indent = ⟨s, (c.skip s.length).mark, c.skip s.length, false⟩ := by
  have hrest := rest_skip_append h
  have hspaces : (c.skip s.length).plainSpaces = ([], false, c.skip s.length) := by
    simpa using plainSpaces_blanks (j := 0) (c := c.skip s.length) (t := ':' :: t) (by simpa using hrest)
      (by simp) (by simp [isBreak])
  have hrun : ∃ y u, ':' :: t = y :: u ∧ endsPlainRun false y u.head? = true :=
    ⟨':', t, rfl, by simp [endsPlainRun, ht]⟩
  rw [plain_text h hs hne hcol hrun (by rw [hspaces]; rfl), hspaces]

/-- A plain text at the end of its line, in front of a line that is indented less. -/
theorem plain_line (indent : Int) {c : Cursor} {s r : List Char} {k : Nat}
    (h : c.rest = s ++ '\n' :: (List.replicate k ' ' ++ r)) (hs : allowsPlain s = true) (hne : s ≠ [])
    (hcol : indent ≤ c.column + 1) (hk : (k : Int) < indent) (hr : Follows k r) :
    c.plain false indent =
      ⟨s, (c.skip s.length).mark, c.skip (s.length + (k + 1)), true⟩ := by
  have hrest := rest_skip_append h
  have hspaces := plainSpaces_line hrest hr
  have hnext := rest_next_cons hrest
  have hcolumn : ((c.skip s.length).skip (k + 1)).column = k := by
    have hm := mark_skip_flat hnext (by simp [isFlat, isBreak])
    rw [List.length_replicate, mark_next_break hrest] at hm
    rw [skip, column, hm]
    simp
  have hrun : ∃ y u, '\n' :: (List.replicate k ' ' ++ r) = y :: u ∧ endsPlainRun false y u.head? = true :=
    ⟨'\n', _, rfl, by simp [endsPlainRun, endsWord, isBreak]⟩
  rw [plain_text h hs hne hcol hrun (by rw [hspaces]; simp [stopsPlain, hcolumn, hk]), hspaces, ← skip_add]

end Cursor
end NoteVault.Yaml
