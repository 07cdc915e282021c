import Mathlib.Tactic
import NoteVault.Yaml.Source

/-!
Where a cursor stands after reading: the mark behind a run of characters of one line, behind a line feed,
and behind anything at all.
-/
namespace NoteVault.Yaml

/-- The character stays on its line and takes a column. -/
def isFlat (c : Char) : Bool := !isBreak c && c ≠ '\ufeff'

/-- A class without the characters that end lines and the byte order mark is flat. -/
theorem isFlat_of_class {p : Char → Bool} {c : Char} (h : p c = true)
    (hp : ['\n', '\r', '\x85', '\u2028', '\u2029', '\ufeff'].any p = false) : isFlat c = true := by
  have hne : ∀ d ∈ ['\n', '\r', '\x85', '\u2028', '\u2029', '\ufeff'], c ≠ d := fun d hd he => by
    rw [he] at h
    exact List.any_eq_false.1 hp d hd h
  simp only [List.mem_cons, List.not_mem_nil, or_false, forall_eq_or_imp, forall_eq] at hne
  simp [isFlat, isBreak, hne]

namespace Cursor

@[simp] theorem skip_zero (c : Cursor) : c.skip 0 = c := rfl

theorem skip_add (c : Cursor) (m n : Nat) : c.skip (m + n) = (c.skip m).skip n := by
  induction m generalizing c with
  | zero => simp
  | succ m ih => rw [Nat.succ_add, skip, skip, ih]

theorem next_eq_skip (c : Cursor) : c.next = c.skip 1 := rfl

@[simp] theorem peek_eq (c : Cursor) : c.peek = c.rest.head? := rfl

@[simp] theorem peekAt_eq (c : Cursor) (n : Nat) : c.peekAt n = c.rest[n]? := rfl

@[simp] theorem at?_eq (c : Cursor) (x : Char) : c.at? x = decide (c.rest.head? = some x) := rfl

theorem rest_skip_append {c : Cursor} {s t : List Char} (h : c.rest = s ++ t) : (c.skip s.length).rest = t := by
  rw [skip_rest, h, List.drop_left]

theorem rest_next_cons {c : Cursor} {x : Char} {t : List Char} (h : c.rest = x :: t) : c.next.rest = t := by
  rw [next_rest, h, List.tail_cons]

/-- Behind a run of flat characters only the column and the number of characters have changed. -/
theorem mark_skip_flat {c : Cursor} {s t : List Char} (h : c.rest = s ++ t) (hs : ∀ x ∈ s, isFlat x = true) :
    (c.skip s.length).mark = ⟨c.mark.index + s.length, c.mark.line, c.mark.column + s.length⟩ := by
  induction s generalizing c with
  | nil => rfl
  | cons x s ih =>
    have hx := hs x (by simp)
    simp only [isFlat, Bool.and_eq_true, Bool.not_eq_true', decide_eq_true_eq] at hx
    have hm : c.next.mark = ⟨c.mark.index + 1, c.mark.line, c.mark.column + 1⟩ := by
      rw [next, h]
      simp [Mark.after, hx.1, hx.2]
    have hr := ih (c := c.next) (rest_next_cons h) fun y hy => hs y (List.mem_cons_of_mem _ hy)
    rw [List.length_cons, skip, hr, hm]
    simp only [Mark.mk.injEq, true_and]
    omega

theorem mark_next_break {c : Cursor} {t : List Char} (h : c.rest = '\n' :: t) :
    c.next.mark = ⟨c.mark.index + 1, c.mark.line + 1, 0⟩ := by
  rw [next, h]
  simp [Mark.after, isBreak]

theorem line_le_next (c : Cursor) : c.mark.line ≤ c.next.mark.line := by
  unfold next
  split
  · exact le_rfl
  · dsimp only [Mark.after]
    split <;> [skip; split] <;> dsimp only <;> omega

theorem line_le_skip (c : Cursor) (n : Nat) : c.mark.line ≤ (c.skip n).mark.line := by
  induction n generalizing c with
  | zero => exact le_rfl
  | succ n ih => exact (line_le_next c).trans (ih c.next)

/-- Blanks are passed over, and nothing else. -/
theorem span_eq {c : Cursor} {p : Char → Bool} {s t : List Char} (h : c.rest = s ++ t)
    (hs : ∀ x ∈ s, p x = true) (ht : t.head?.any p = false) : c.span p = (s, c.skip s.length) := by
  have hrun : (s ++ t).takeWhile p = s := by
    rw [List.takeWhile_append_of_pos hs]
    cases t with
    | nil => simp
    | cons x t => simp_all
  simp [span, h, hrun]

theorem lineBreak_feed {c : Cursor} {t : List Char} (h : c.rest = '\n' :: t) : c.lineBreak = (['\n'], c.next) := by
  rw [lineBreak, h]
  simp [isBreak]

end Cursor

/-- A break that is read as it is written: a line feed, or one of the separators of lines and paragraphs. -/
def isKeptBreak (c : Char) : Bool := c = '\n' || c = '\u2028' || c = '\u2029'

theorem isBreak_of_isKeptBreak {c : Char} (h : isKeptBreak c = true) : isBreak c = true := by
  simp only [isKeptBreak, isBreak, Bool.or_eq_true, decide_eq_true_eq] at h ⊢
  tauto

theorem Cursor.lineBreak_kept {c : Cursor} {x : Char} {t : List Char} (h : c.rest = x :: t)
    (hx : isKeptBreak x = true) : c.lineBreak = ([x], c.next) := by
  have hb := isBreak_of_isKeptBreak hx
  simp only [isKeptBreak, Bool.or_eq_true, decide_eq_true_eq, or_assoc] at hx
  rw [lineBreak, h]
  rcases hx with rfl | rfl | rfl <;> simp [isBreak]

end NoteVault.Yaml
