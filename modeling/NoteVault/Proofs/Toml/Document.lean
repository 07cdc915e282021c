import NoteVault.Proofs.Toml.Scalar
import NoteVault.Toml.Document

/-!
What values, headers and lines of a settings file leave behind them. So the only failure of a file other than a fault,
an integer of too many digits, comes from a run of so many digits in the file.
-/
namespace NoteVault.Toml

variable {s : List Char}

theorem locate_leavesEnd {α : Type} (after : List Char) (r : Except Problem α) :
    LeavesEnd (fun _ => after) after (locate after r) := by
  cases r with
  | ok a => exact leavesEnd_ok (List.suffix_refl _)
  | error p => exact leavesEnd_refuse

theorem skipLines_leavesEnd (fuel : Nat) (s : List Char) : LeavesEnd id s (skipLines fuel s) := by
  induction fuel generalizing s with
  | zero => exact leavesEnd_ok (List.suffix_refl _)
  | succ fuel ih =>
    refine LeavesEnd.mono (t := s.dropWhile isBlankOrBreak) ?_ (List.dropWhile_suffix _)
    unfold skipLines
    split
    next rest h =>
      rw [h]
      exact (skipComment_leavesEnd _).bind fun after => ih after
    next => exact leavesEnd_ok (List.suffix_refl _)

theorem skipAll_leavesEnd (s : List Char) : LeavesEnd id s (skipAll s) := skipLines_leavesEnd _ s

theorem keyEquals_leavesEnd (s : List Char) : LeavesEnd Prod.snd s (keyEquals s) := by
  unfold keyEquals
  refine (key_leavesEnd s).bind fun ⟨k, after⟩ => ?_
  dsimp only
  split
  next rest => exact leavesEnd_ok ((skipBlanks_suffix rest).trans (List.suffix_cons _ _))
  next => exact leavesEnd_refuse

theorem textBehind_leavesEnd (quote : Char) (rest : List Char) : LeavesEnd Prod.snd rest (textBehind quote rest) := by
  unfold textBehind
  have hstart : (if hasTwoMore quote rest then rest.drop 2 else rest) <:+ rest := by
    split_ifs
    · exact List.drop_suffix _ _
    · exact List.suffix_refl _
  exact ((quotedText_leavesEnd _).mono hstart).bind fun _ => leavesEnd_ok (List.suffix_refl _)

-- Values, items and entries read each other with less fuel each time, which is what the induction is on.
mutual

theorem value_leavesEnd (fuel : Nat) (s : List Char) : LeavesEnd Prod.snd s (value fuel s) := by
  cases fuel with
  | zero => exact leavesEnd_refuse
  | succ fuel =>
    unfold value
    split
    next rest => exact (textBehind_leavesEnd _ rest).mono (List.suffix_cons _ _)
    next rest => exact (textBehind_leavesEnd _ rest).mono (List.suffix_cons _ _)
    next rest =>
      refine ((skipAll_leavesEnd rest).mono (List.suffix_cons _ _)).bind fun after => ?_
      exact (items_leavesEnd fuel after).bind fun _ => leavesEnd_ok (List.suffix_refl _)
    next rest =>
      have hblanks : skipBlanks rest <:+ '\x7b' :: rest := (skipBlanks_suffix rest).trans (List.suffix_cons _ _)
      split
      next after h => exact leavesEnd_ok ((List.suffix_cons _ _).trans (h ▸ hblanks))
      next => exact (entries_leavesEnd fuel _ _ _).mono hblanks
    next after => exact leavesEnd_ok ⟨['t', 'r', 'u', 'e'], rfl⟩
    next after => exact leavesEnd_ok ⟨['f', 'a', 'l', 's', 'e'], rfl⟩
    next => exact scalar_leavesEnd s

theorem items_leavesEnd (fuel : Nat) (s : List Char) : LeavesEnd Prod.snd s (items fuel s) := by
  cases fuel with
  | zero => exact leavesEnd_refuse
  | succ fuel =>
    unfold items
    split
    next after => exact leavesEnd_ok (List.suffix_cons _ _)
    next =>
      refine (value_leavesEnd fuel s).bind fun ⟨v, after⟩ => ?_
      refine (skipAll_leavesEnd after).bind fun after => ?_
      dsimp only
      split
      next after => exact leavesEnd_ok (List.suffix_cons _ _)
      next rest =>
        refine ((skipAll_leavesEnd rest).mono (List.suffix_cons _ _)).bind fun after => ?_
        exact (items_leavesEnd fuel after).bind fun _ => leavesEnd_ok (List.suffix_refl _)
      next => exact leavesEnd_refuse

theorem entries_leavesEnd (fuel : Nat) (m : Mapping) (marks : Marks) (s : List Char) :
    LeavesEnd Prod.snd s (entries fuel m marks s) := by
  cases fuel with
  | zero => exact leavesEnd_refuse
  | succ fuel =>
    unfold entries
    refine (keyEquals_leavesEnd s).bind fun ⟨k, rest⟩ => ?_
    refine (value_leavesEnd fuel rest).bind fun ⟨v, after⟩ => ?_
    refine (locate_leavesEnd after _).bind fun ⟨m, marks⟩ => ?_
    have hblanks := skipBlanks_suffix after
    dsimp only
    split
    next after h => exact leavesEnd_ok ((List.suffix_cons _ _).trans (h ▸ hblanks))
    next rest h =>
      refine (entries_leavesEnd fuel _ _ _).mono ((skipBlanks_suffix rest).trans ?_)
      exact (List.suffix_cons _ _).trans (h ▸ hblanks)
    next => exact leavesEnd_refuse

end

theorem header_leavesEnd (d : Draft) (s : List Char) : LeavesEnd Prod.snd s (header d s) := by
  unfold header
  split
  next rest =>
    have hstart : skipBlanks rest <:+ '[' :: '[' :: rest := (skipBlanks_suffix rest).trans ⟨['[', '['], rfl⟩
    refine ((key_leavesEnd _).mono hstart).bind fun ⟨k, after⟩ => ?_
    refine (locate_leavesEnd after _).bind fun d => ?_
    split
    next after => exact leavesEnd_ok ⟨[']', ']'], rfl⟩
    next => exact leavesEnd_refuse
  next =>
    have hstart : skipBlanks (s.drop 1) <:+ s := (skipBlanks_suffix _).trans (List.drop_suffix _ _)
    refine ((key_leavesEnd _).mono hstart).bind fun ⟨k, after⟩ => ?_
    refine (locate_leavesEnd after _).bind fun d => ?_
    split
    next after => exact leavesEnd_ok (List.suffix_cons _ _)
    next => exact leavesEnd_refuse

theorem statement_leavesEnd (d : Draft) (s : List Char) : LeavesEnd Prod.snd s (statement d s) := by
  unfold statement
  split
  next => exact header_leavesEnd d _
  next => exact leavesEnd_ok (List.suffix_refl _)
  next =>
    split_ifs
    · refine (keyEquals_leavesEnd _).bind fun ⟨k, rest⟩ => ?_
      refine (value_leavesEnd _ rest).bind fun ⟨v, after⟩ => ?_
      exact (locate_leavesEnd after _).bind fun _ => leavesEnd_ok (List.suffix_refl _)
    · exact leavesEnd_refuse
  next => exact leavesEnd_ok (List.suffix_refl _)

theorem lines_leavesEnd (fuel : Nat) (d : Draft) (s : List Char) : LeavesEnd (fun _ => []) s (lines fuel d s) := by
  induction fuel generalizing d s with
  | zero => exact leavesEnd_ok List.nil_suffix
  | succ fuel ih =>
    refine LeavesEnd.mono (t := skipBlanks s) ?_ (skipBlanks_suffix s)
    unfold lines
    split
    next => exact leavesEnd_ok List.nil_suffix
    next rest h =>
      rw [h]
      exact (ih d rest).mono (List.suffix_cons _ _)
    next =>
      refine (statement_leavesEnd d _).bind fun ⟨d, after⟩ => ?_
      refine ((skipComment_leavesEnd _).mono (skipBlanks_suffix after)).bind fun after => ?_
      dsimp only [id]
      split
      next => exact leavesEnd_ok List.nil_suffix
      next rest => exact (ih d rest).mono (List.suffix_cons _ _)
      next => exact leavesEnd_refuse

/-- What has no line break in it stands in the text also where line breaks are not unified. -/
theorem prefix_of_unifyBreaks {run : List Char} (hline : '\n' ∉ run) (h : run <+: unifyBreaks s) : run <+: s := by
  induction s using unifyBreaks.induct generalizing run with
  | case1 rest ih =>
    rw [unifyBreaks, List.prefix_cons_iff] at h
    obtain rfl | ⟨run, rfl, h⟩ := h
    · exact List.nil_prefix
    · exact absurd List.mem_cons_self hline
  | case2 c rest hfirst ih =>
    rw [unifyBreaks, List.prefix_cons_iff] at h
    · obtain rfl | ⟨run, rfl, h⟩ := h
      · exact List.nil_prefix
      · exact List.cons_prefix_cons.2 ⟨rfl, ih (fun hmem => hline (List.mem_cons_of_mem _ hmem)) h⟩
    · exact hfirst
  | case3 => exact h

theorem infix_of_unifyBreaks {run : List Char} (hline : '\n' ∉ run) (h : run <:+: unifyBreaks s) : run <:+: s := by
  induction s using unifyBreaks.induct with
  | case1 rest ih =>
    -- what begins at the break that was joined begins in front of its carriage return
    rw [unifyBreaks, List.infix_cons_iff] at h
    obtain h | h := h
    · exact (prefix_of_unifyBreaks (s := '\r' :: '\n' :: rest) hline h).isInfix
    · exact (ih h).trans ⟨['\r', '\n'], [], by simp⟩
  | case2 c rest hfirst ih =>
    have heq : unifyBreaks (c :: rest) = c :: unifyBreaks rest := by
      rw [unifyBreaks]
      exact hfirst
    rw [heq, List.infix_cons_iff] at h
    obtain h | h := h
    · exact (prefix_of_unifyBreaks hline (heq ▸ h)).isInfix
    · exact (ih h).trans (List.suffix_cons _ _).isInfix
  | case3 => exact h

theorem HoldsDigits.of_unifyBreaks {n : Nat} (h : HoldsDigits (unifyBreaks s) n) : HoldsDigits s n := by
  obtain ⟨run, hrun, hdigits, hcount⟩ := h
  refine ⟨run, infix_of_unifyBreaks (fun hline => ?_) hrun, hdigits, hcount⟩
  simpa using hdigits _ hline

/-- A file fails for an integer of too many digits only if so many digits stand in it. -/
theorem holdsDigits_of_read {text : List Char} {n : Nat} (h : read text = .error (.longInteger n)) :
    Number.maxDigits < n ∧ HoldsDigits text n := by
  unfold read at h
  dsimp only at h
  split at h
  · cases h
  · cases h
  next n' hlines =>
    obtain rfl := ReadError.longInteger.inj (Except.error.inj h)
    obtain ⟨hlong, hdigits⟩ := (lines_leavesEnd _ _ _).2 _ hlines
    exact ⟨hlong, hdigits.of_unifyBreaks⟩

end NoteVault.Toml
