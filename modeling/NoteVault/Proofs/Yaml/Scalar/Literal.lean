import NoteVault.Proofs.Text.Lines
import NoteVault.Proofs.Yaml.Scalar.Plain
import NoteVault.Yaml.Token.Scan

/-!
Scalars in blocks whose lines are not empty and do not begin with a blank.
-/
namespace NoteVault.Yaml

open Form (spaces)

/-- A line of a block. -/
structure IsBlockLine (line : List Char) : Prop where
  ne_nil : line ≠ []
  flat : ∀ c ∈ line, isFlat c = true
  flush : line.head? ≠ some ' '
  acceptable : ∀ c ∈ line, isAcceptable c = true

theorem IsBlockLine.exists_head {line : List Char} (h : IsBlockLine line) :
    ∃ x t, line = x :: t ∧ x ≠ ' ' ∧ isBreak x = false := by
  obtain ⟨x, t, rfl⟩ := List.exists_cons_of_ne_nil h.ne_nil
  have hflat := h.flat x List.mem_cons_self
  simp only [isFlat, Bool.and_eq_true, Bool.not_eq_true'] at hflat
  exact ⟨x, t, rfl, by simpa using h.flush, hflat.1⟩

/-- Lines with their indentation, each one behind a line feed. -/
def indented (n : Nat) (lines : List (List Char)) : List Char :=
  lines.flatMap fun line => '\n' :: spaces n ++ line

/-- The text of lines that end with a line feed each. -/
def ended (lines : List (List Char)) : List Char := lines.flatMap (· ++ ['\n'])

theorem not_mem_of_flat {line : List Char} (h : ∀ c ∈ line, isFlat c = true) : '\n' ∉ line := fun hm =>
  absurd (h _ hm) (by decide)

theorem fields_ended {lines : List (List Char)} (h : ∀ line ∈ lines, IsBlockLine line) :
    Text.fields '\n' (ended lines) = lines ++ [[]] := by
  induction lines with
  | nil => rfl
  | cons line lines ih =>
    have hline := not_mem_of_flat (h line (by simp)).flat
    rw [ended, List.flatMap_cons, List.append_assoc, List.singleton_append, Text.fields_append_sep,
      Text.fields_of_not_mem hline]
    exact congrArg (line :: ·) (ih fun l hl => h l (List.mem_cons_of_mem _ hl))

theorem body_literal {n : Nat} {lines : List (List Char)} (h : ∀ line ∈ lines, IsBlockLine line) :
    Form.body n .literal (ended lines) = '|' :: indented n lines := by
  have hlines : ∀ {ls : List (List Char)}, (∀ line ∈ ls, IsBlockLine line) →
      (ls.flatMap fun line => if line.isEmpty then [] else '\n' :: spaces n ++ line) = indented n ls := by
    intro ls hls
    induction ls with
    | nil => rfl
    | cons l ls ih =>
      have hl := (hls l (by simp)).ne_nil
      rw [List.flatMap_cons, ih fun l hl => hls l (List.mem_cons_of_mem _ hl)]
      simp [hl, indented]
  change '|' :: (Text.fields '\n' (ended lines)).flatMap _ = _
  rw [fields_ended h, List.flatMap_append, hlines h]
  simp

namespace Cursor

theorem column_skip_flat {c : Cursor} {s t : List Char} (h : c.rest = s ++ t) (hs : ∀ x ∈ s, isFlat x = true) :
    (c.skip s.length).column = c.column + s.length := by
  rw [column, mark_skip_flat h hs]
  rfl

theorem isFlat_of_mem_spaces {n : Nat} {c : Char} (h : c ∈ spaces n) : isFlat c = true := by
  rw [(List.mem_replicate.1 h).2]
  decide

theorem toColumn_blanks {c : Cursor} {n m : Nat} {t : List Char} (h : c.rest = spaces n ++ t)
    (ht : m = c.column + n ∨ t.head? ≠ some ' ') (hm : c.column + n ≤ m) (fuel : Nat) (hf : n ≤ fuel) :
    toColumn m fuel c = c.skip n := by
  induction fuel generalizing c n with
  | zero =>
    obtain rfl : n = 0 := by omega
    rfl
  | succ fuel ih =>
    cases n with
    | zero =>
      have hstop : (decide (c.column < m) && c.at? ' ') = false := by
        rw [at?_eq, h]
        rcases ht with ht | ht
        · simp [ht]
        · simp [spaces, ht]
      rw [toColumn, if_neg (by rw [hstop]; exact Bool.false_ne_true)]
      rfl
    | succ n =>
      have hrest : c.rest = ' ' :: (spaces n ++ t) := by rw [h]; rfl
      have hcol : c.next.column = c.column + 1 :=
        column_skip_flat (s := [' ']) hrest (by simp [isFlat, isBreak])
      have hgo : (decide (c.column < m) && c.at? ' ') = true := by
        rw [at?_eq, hrest]
        simp only [List.head?_cons, decide_true, Bool.and_true, decide_eq_true_eq]
        omega
      rw [toColumn, if_pos hgo]
      exact ih (rest_next_cons hrest) (ht.imp_left fun ht => by omega) (by omega) (by omega)

theorem blockBreaks_none {c : Cursor} {n m : Nat} {t : List Char} (stop : Mark) (h : c.rest = spaces n ++ t)
    (hcol : c.column = 0) (hn : n ≤ m) (ht : m = n ∨ t.head? ≠ some ' ') (hb : t.head?.any isBreak = false)
    (fuel : Nat) : blockBreaks m (fuel + 1) stop c = ([], stop, c.skip n) := by
  have hto : toColumn m m c = c.skip n :=
    toColumn_blanks h (ht.imp_left (by omega)) (by omega) m hn
  have hrest : (c.skip n).rest = t := by simpa [spaces] using rest_skip_append h
  rw [blockBreaks, hto]
  dsimp only
  rw [if_neg (by rw [peek_eq, hrest, hb]; exact Bool.false_ne_true)]

theorem column_next_break {c : Cursor} {t : List Char} (h : c.rest = '\n' :: t) : c.next.column = 0 := by
  rw [column, mark_next_break h]

theorem blockLead_blanks {c : Cursor} {n : Nat} (deepest : Nat) (stop : Mark) {t : List Char}
    (h : c.rest = spaces n ++ t)
    (ht : t.head? ≠ some ' ') (hb : t.head?.any isBreak = false) (fuel : Nat) (hf : n < fuel) :
    blockLead fuel deepest stop c = ([], if n = 0 then deepest else max deepest (c.column + n), stop, c.skip n) := by
  induction fuel generalizing c n deepest with
  | zero => omega
  | succ fuel ih =>
    cases n with
    | zero =>
      have hrest : c.rest = t := h
      rw [blockLead, peek_eq, hrest]
      cases t with
      | nil => rfl
      | cons x t =>
        have hx : x ≠ ' ' := by simpa using ht
        rw [List.head?_cons]
        split
        next he => exact absurd (Option.some.inj he) hx
        next y _ he =>
          obtain rfl := Option.some.inj he
          rw [if_neg (by simpa using hb)]
          rfl
        next he => exact absurd he (Option.some_ne_none x)
    | succ n =>
      have hrest : c.rest = ' ' :: (spaces n ++ t) := by rw [h]; rfl
      have hcol : c.next.column = c.column + 1 :=
        column_skip_flat (s := [' ']) hrest (by simp [isFlat, isBreak])
      rw [blockLead, peek_eq, hrest, List.head?_cons]
      dsimp only
      rw [ih _ (rest_next_cons hrest) (by omega), hcol]
      have hdeep : (if n = 0 then max deepest (c.column + 1) else max (max deepest (c.column + 1)) (c.column + 1 + n)) =
          max deepest (c.column + (n + 1)) := by split <;> omega
      rw [hdeep]
      rfl

/-- No indicators stand behind the sign. -/
theorem blockIndicators_feed {c : Cursor} {start : Mark} {t : List Char} (h : c.rest = '\n' :: t) :
    c.blockIndicators start = .ok (.clip, none, c) := by
  simp [blockIndicators, h, endsField, isBreak, bind, Except.bind]

theorem ignoredLine_feed {c : Cursor} {context : Context} {start : Mark} {t : List Char} (h : c.rest = '\n' :: t) :
    c.ignoredLine context start = .ok c.next := by
  have hspan : c.span (· = ' ') = ([], c) := by
    have := span_eq (c := c) (p := (· = ' ')) (s := []) h (by simp) (by simp)
    simpa using this
  simp [ignoredLine, skipAll, hspan, h, endsLine, isBreak, lineBreak_feed h]

/-- Behind a line and the indentation of the next one. -/
theorem skip_line {c : Cursor} {line t : List Char} {m : Nat} (h : c.rest = line ++ '\n' :: (spaces m ++ t)) :
    (c.skip (line.length + (m + 1))).rest = t ∧ (c.skip (line.length + (m + 1))).column = m ∧
      c.mark.line < (c.skip (line.length + (m + 1))).mark.line := by
  have hafter := rest_skip_append h
  have hbehind := rest_next_cons hafter
  have hrest := rest_skip_append hbehind
  have hmark := mark_skip_flat hbehind fun x hx => isFlat_of_mem_spaces hx
  have hle := line_le_skip c line.length
  have hskip : c.skip (line.length + (m + 1)) = (c.skip line.length).next.skip m := by rw [skip_add]; rfl
  rw [spaces, List.length_replicate] at hrest hmark
  rw [mark_next_break hafter, Nat.zero_add] at hmark
  rw [hskip, column, hmark]
  exact ⟨hrest, rfl, by dsimp only; omega⟩

/-- One turn reads a line, and goes on where a line with the same indentation follows. -/
theorem blockLines_line {n m : Nat} (fuel : Nat) (text last : List Char) (stop : Mark) {c : Cursor} {line t : List Char}
    (hline : IsBlockLine line) (h : c.rest = line ++ '\n' :: (spaces m ++ t)) (hcol : c.column = n) (hm : m ≤ n)
    (ht : n = m ∨ t.head? ≠ some ' ') (hb : t.head?.any isBreak = false) :
    ∃ stop', blockLines false n (fuel + 1) text last [] stop c =
      if m = n ∧ t.head?.isSome then
        blockLines false n fuel (text ++ line ++ ['\n']) ['\n'] [] stop' (c.skip (line.length + (m + 1)))
      else (text ++ line, ['\n'], [], stop', c.skip (line.length + (m + 1))) := by
  have hsome : c.peek.isSome = true := by
    obtain ⟨x, u, rfl, -⟩ := hline.exists_head
    rw [peek_eq, h]
    rfl
  have hspan : c.span (!isBreak ·) = (line, c.skip line.length) :=
    span_eq h (fun x hx => by
      have hflat := hline.flat x hx
      simp only [isFlat, Bool.and_eq_true] at hflat
      exact hflat.1) (by simp [isBreak])
  have hafter := rest_skip_append h
  have hbreaks := blockBreaks_none (c.skip line.length).next.mark (rest_next_cons hafter)
    (column_next_break hafter) hm ht hb
    (c.skip line.length).next.rest.length
  have hskip : (c.skip line.length).next.skip m = c.skip (line.length + (m + 1)) :=
    (skip_add c line.length (m + 1)).symm
  obtain ⟨hrest, hcolumn, -⟩ := skip_line h
  refine ⟨(c.skip line.length).next.mark, ?_⟩
  rw [blockLines, if_pos (by rw [hsome]; simp [hcol]), hspan]
  dsimp only
  rw [lineBreak_feed hafter]
  dsimp only
  rw [hbreaks, hskip, peek_eq, hrest, hcolumn]
  simp

/-- The lines of a block behind the indentation of the first one. -/
theorem blockLines_indented {n k : Nat} {r : List Char} (hk : k < n) (hr : Follows k r) {lines : List (List Char)}
    (fuel : Nat) (text last : List Char) (stop : Mark) {c : Cursor} {line : List Char} (hline : IsBlockLine line)
    (hlines : ∀ l ∈ lines, IsBlockLine l)
    (h : c.rest = line ++ (indented n lines ++ '\n' :: (spaces k ++ r))) (hcol : c.column = n)
    (hf : lines.length < fuel) :
    ∃ stop', blockLines false n fuel text last [] stop c =
      (text ++ (line ++ lines.flatMap ('\n' :: ·)), ['\n'], [], stop',
        c.skip ((line ++ indented n lines).length + (k + 1))) := by
  obtain ⟨fuel, rfl⟩ : ∃ f, fuel = f + 1 := ⟨fuel - 1, by omega⟩
  induction lines generalizing c line text last stop fuel with
  | nil =>
    obtain ⟨stop', hread⟩ := blockLines_line fuel text last stop hline h hcol hk.le (.inr hr.no_blank) hr.no_break
    refine ⟨stop', ?_⟩
    rw [hread, if_neg fun hgoes => hk.ne hgoes.1]
    simp [indented]
  | cons l ls ih =>
    obtain ⟨hl, hls⟩ := List.forall_mem_cons.1 hlines
    obtain ⟨x, u, rfl, -, hbreak⟩ := hl.exists_head
    have hnext : c.rest = line ++ '\n' :: (spaces n ++ (x :: u ++ (indented n ls ++ '\n' :: (spaces k ++ r)))) := by
      simpa [indented] using h
    obtain ⟨hrest, hcolumn, -⟩ := skip_line hnext
    obtain ⟨stop', hread⟩ :=
      blockLines_line fuel text last stop hline hnext hcol le_rfl (.inl rfl) (by simpa using hbreak)
    obtain ⟨fuel, rfl⟩ : ∃ f, fuel = f + 1 := ⟨fuel - 1, by simp at hf; omega⟩
    obtain ⟨stop'', hmore⟩ := ih (text ++ line ++ ['\n']) ['\n'] stop' hl hls hrest hcolumn fuel
      (by simpa using hf)
    refine ⟨stop'', ?_⟩
    rw [hread, if_pos ⟨rfl, rfl⟩, hmore, ← skip_add]
    have hlength : line.length + (n + 1) + ((x :: u ++ indented n ls).length + (k + 1)) =
        (line ++ indented n ((x :: u) :: ls)).length + (k + 1) := by
      simp [indented, spaces]
      omega
    rw [hlength]
    simp

theorem length_le_indented (n : Nat) (lines : List (List Char)) : lines.length ≤ (indented n lines).length := by
  induction lines with
  | nil => exact le_rfl
  | cons l ls ih =>
    simp only [indented, List.flatMap_cons, List.length_append, List.length_cons] at ih ⊢
    omega

theorem line_feeds (line : List Char) (lines : List (List Char)) :
    line ++ lines.flatMap ('\n' :: ·) ++ ['\n'] = ended (line :: lines) := by
  induction lines generalizing line with
  | nil => simp [ended]
  | cons l ls ih =>
    have := ih l
    simp only [ended, List.flatMap_cons, List.append_assoc, List.cons_append, List.nil_append] at this ⊢
    rw [this]

/-- A text in a block at the end of its line, in front of a line that is indented less. -/
theorem block_ended {c : Cursor} (parent : Int) {n k : Nat} {r : List Char} {lines : List (List Char)}
    (h : c.rest = '|' :: (indented n lines ++ '\n' :: (spaces k ++ r))) (hlines : ∀ line ∈ lines, IsBlockLine line)
    (hne : lines ≠ []) (hn : 0 < n) (hparent : parent + 1 ≤ n) (hk : k < n) (hr : Follows k r) :
    ∃ stop, c.block false parent =
      .ok (ended lines, stop, c.skip (('|' :: indented n lines).length + (k + 1))) := by
  cases lines with
  | nil => exact absurd rfl hne
  | cons line lines =>
    have hline := hlines line (by simp)
    obtain ⟨x, t, hx, hblank, hbreak⟩ := hline.exists_head
    have hnext : c.next.rest = '\n' :: (spaces n ++ (line ++ (indented n lines ++ '\n' :: (spaces k ++ r)))) := by
      rw [rest_next_cons h]
      simp [indented]
    have hbehind := rest_next_cons hnext
    have hzero := column_next_break hnext
    have hlead := blockLead_blanks 0 c.next.next.mark hbehind
      (by rw [hx]; simpa using hblank) (by rw [hx]; simpa using hbreak) (c.next.next.rest.length + 1)
      (by rw [hbehind, List.length_append, spaces, List.length_replicate]; omega)
    rw [hzero, Nat.zero_add, Nat.zero_max, if_neg (Nat.ne_of_gt hn)] at hlead
    have hcol : (c.next.next.skip n).column = n := by
      have := column_skip_flat hbehind fun x hx => isFlat_of_mem_spaces hx
      simpa [spaces, hzero] using this
    have hrest : (c.next.next.skip n).rest = line ++ (indented n lines ++ '\n' :: (spaces k ++ r)) := by
      simpa [spaces] using rest_skip_append hbehind
    have hleast : max (max (parent + 1) 1).toNat n = n := by omega
    obtain ⟨stop, hread⟩ := blockLines_indented hk hr (c.next.next.rest.length + 1) [] []
      c.next.next.mark hline (fun l hl => hlines l (List.mem_cons_of_mem _ hl)) hrest hcol
      (by rw [hbehind]; simp only [List.length_append]; have := length_le_indented n lines; omega)
    refine ⟨stop, ?_⟩
    unfold block
    dsimp only
    rw [blockIndicators_feed hnext]
    dsimp only [bind, Except.bind]
    rw [ignoredLine_feed hnext]
    dsimp only
    rw [hlead]
    dsimp only
    rw [hleast, hread]
    have hskip : (c.next.next.skip n).skip ((line ++ indented n lines).length + (k + 1)) =
        c.skip (('|' :: indented n (line :: lines)).length + (k + 1)) := by
      rw [next_eq_skip, next_eq_skip, ← skip_add, ← skip_add, ← skip_add]
      congr 1
      simp [indented, spaces]
      omega
    rw [hskip, List.nil_append, line_feeds]

end Cursor

end NoteVault.Yaml
