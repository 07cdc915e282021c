import NoteVault.Proofs.Toml.Rest
import NoteVault.Toml.Scalar

/-!
What numbers, dates and times of a settings file leave behind them. An integer in base ten is the only one that may have
too many digits, all of which stand in the text.
-/
namespace NoteVault.Toml

variable {s : List Char}

/-- Digits as they are read, and as they stand. -/
theorem digitRun_eq {isDigit : Char → Bool} (hline : isDigit '_' = false) (s : List Char) :
    ∃ run, s = run ++ (digitRun isDigit s).2 ∧ (∀ c ∈ run, isDigit c = true ∨ c = '_') ∧
      run.countP isDigit = (digitRun isDigit s).1.length := by
  induction s using digitRun.induct isDigit with
  | case1 => exact ⟨[], rfl, by simp, rfl⟩
  | case2 c rest hc _ _ _ ih =>
    obtain ⟨run, hrun, hdigits, hcount⟩ := ih
    have hstep : digitRun isDigit ('_' :: c :: rest) = (c :: (digitRun isDigit rest).1, (digitRun isDigit rest).2) := by
      rw [digitRun, if_pos hc]
    rw [hstep]
    exact ⟨'_' :: c :: run, congrArg (fun t => '_' :: c :: t) hrun, by simpa [hc] using hdigits,
      by simpa [hc, hline] using hcount⟩
  | case3 c rest hc =>
    have hstop : digitRun isDigit ('_' :: c :: rest) = ([], '_' :: c :: rest) := by rw [digitRun, if_neg hc]
    rw [hstop]
    exact ⟨[], rfl, by simp, rfl⟩
  | case4 c rest hfirst hc _ _ _ ih =>
    obtain ⟨run, hrun, hdigits, hcount⟩ := ih
    have hstep : digitRun isDigit (c :: rest) = (c :: (digitRun isDigit rest).1, (digitRun isDigit rest).2) := by
      rw [digitRun, if_pos hc]
      exact hfirst
    rw [hstep]
    exact ⟨c :: run, congrArg (c :: ·) hrun, by simpa [hc] using hdigits, by simpa [hc] using hcount⟩
  | case5 c rest hfirst hc =>
    have hstop : digitRun isDigit (c :: rest) = ([], c :: rest) := by
      rw [digitRun, if_neg hc]
      exact hfirst
    rw [hstop]
    exact ⟨[], rfl, by simp, rfl⟩

theorem digits?_eq {isDigit : Char → Bool} {r : List Char × List Char} (h : digits? isDigit s = some r) :
    r = digitRun isDigit s := by
  unfold digits? at h
  split at h
  · split at h
    · exact (Option.some.inj h).symm
    · cases h
  · cases h

theorem digits?_suffix {isDigit : Char → Bool} (hline : isDigit '_' = false) {r : List Char × List Char}
    (h : digits? isDigit s = some r) : r.2 <:+ s := by
  obtain ⟨run, hrun, -⟩ := digitRun_eq hline s
  exact ⟨run, by rw [digits?_eq h, ← hrun]⟩

theorem basedInteger?_suffix {r : Value × List Char} (h : basedInteger? s = some r) : r.2 <:+ s := by
  unfold basedInteger? at h
  split at h
  next letter rest =>
    obtain ⟨base, -, h⟩ := Option.bind_eq_some_iff.1 h
    obtain ⟨⟨ds, after⟩, hds, h⟩ := Option.bind_eq_some_iff.1 h
    obtain rfl := Option.some.inj h
    have hline : isDigitOf base '_' = false := by simp [isDigitOf, Number.digitOf?]
    exact (digits?_suffix hline hds).trans ((List.suffix_cons _ _).trans (List.suffix_cons _ _))
  next => cases h

theorem fraction_suffix (s : List Char) : (fraction s).2 <:+ s := by
  unfold fraction
  split
  next rest =>
    cases h : digits? Char.isDigit rest with
    | none => exact List.suffix_refl _
    | some r => exact (digits?_suffix rfl h).trans (List.suffix_cons _ _)
  next => exact List.suffix_refl _

theorem exponent_suffix (s : List Char) : (exponent s).2 <:+ s := by
  unfold exponent
  split
  next c rest =>
    dsimp only
    split_ifs
    · split
      next ds after h => exact (digits?_suffix rfl h).trans ((List.drop_suffix _ _).trans (List.suffix_cons _ _))
      next => exact List.suffix_refl _
    · exact List.suffix_refl _
  next => exact List.suffix_refl _

theorem wholeDigits?_eq {r : List Char × List Char} (h : wholeDigits? s = some r) :
    r.2 <:+ s ∧ HoldsDigits s r.1.length := by
  unfold wholeDigits? at h
  split at h
  next rest =>
    obtain rfl := Option.some.inj h
    exact ⟨List.suffix_cons _ _, ['0'], ⟨[], rest, rfl⟩, by simp, rfl⟩
  next =>
    obtain ⟨run, hrun, hdigits, hcount⟩ := digitRun_eq (rfl : Char.isDigit '_' = false) s
    rw [digits?_eq h]
    exact ⟨⟨run, hrun.symm⟩, run, ⟨[], _, hrun.symm⟩, hdigits, hcount⟩

theorem decimal?_leavesEnd {x : Except Error (Reading Value)} (h : decimal? s = some x) :
    LeavesEnd Prod.snd s x := by
  unfold decimal? at h
  obtain ⟨⟨whole, rest⟩, hwhole, h⟩ := Option.bind_eq_some_iff.1 h
  obtain ⟨hrest, hdigits⟩ := wholeDigits?_eq hwhole
  have hdrop := List.drop_suffix ((s.take 1).filter fun c => c = '+' || c = '-').length s
  have hend : (exponent (fraction rest).2).2 <:+ s :=
    (exponent_suffix _).trans ((fraction_suffix rest).trans (hrest.trans hdrop))
  dsimp only at h
  split_ifs at h with _ hlong
  · obtain rfl := Option.some.inj h
    refine ⟨nofun, fun n hn => ?_⟩
    obtain rfl := Error.longInteger.inj (Except.error.inj hn)
    exact HoldsLong.mono ⟨hlong, hdigits⟩ hdrop
  all_goals
    obtain rfl := Option.some.inj h
    exact leavesEnd_ok hend

theorem specialFloat?_suffix {r : Value × List Char} (h : specialFloat? s = some r) : r.2 <:+ s := by
  unfold specialFloat? at h
  dsimp only at h
  split_ifs at h
  all_goals
    obtain rfl := Option.some.inj h
    exact (List.drop_suffix _ _).trans (List.drop_suffix _ _)

theorem fixed?_suffix {width low high : Nat} {r : Nat × List Char} (h : fixed? width low high s = some r) :
    r.2 <:+ s := by
  unfold fixed? at h
  dsimp only at h
  split_ifs at h
  · cases h
  · obtain ⟨n, -, h⟩ := Option.bind_eq_some_iff.1 h
    split_ifs at h
    obtain rfl := Option.some.inj h
    exact List.drop_suffix _ _

theorem expect?_suffix {c : Char} {after : List Char} (h : expect? c s = some after) : after <:+ s := by
  unfold expect? at h
  split at h
  · split_ifs at h
    obtain rfl := Option.some.inj h
    exact List.suffix_cons _ _
  · cases h

/-- Behind a mark: digits of fixed width. -/
theorem expect?_fixed?_suffix {c : Char} {t : List Char} {width low high : Nat} {r : Nat × List Char}
    (hc : expect? c s = some t) (h : fixed? width low high t = some r) : r.2 <:+ s :=
  (fixed?_suffix h).trans (expect?_suffix hc)

theorem clock?_suffix {r : Clock × List Char} (h : clock? s = some r) : r.2 <:+ s := by
  unfold clock? at h
  obtain ⟨⟨hour, s₁⟩, hhour, h⟩ := Option.bind_eq_some_iff.1 h
  obtain ⟨t₁, ht₁, h⟩ := Option.bind_eq_some_iff.1 h
  obtain ⟨⟨minute, s₂⟩, hminute, h⟩ := Option.bind_eq_some_iff.1 h
  obtain ⟨t₂, ht₂, h⟩ := Option.bind_eq_some_iff.1 h
  obtain ⟨⟨second, s₃⟩, hsecond, h⟩ := Option.bind_eq_some_iff.1 h
  have hs₃ : s₃ <:+ s := (expect?_fixed?_suffix ht₂ hsecond).trans
    ((expect?_fixed?_suffix ht₁ hminute).trans (fixed?_suffix hhour))
  dsimp only at h
  split at h
  next rest =>
    split_ifs at h
    all_goals obtain rfl := Option.some.inj h
    · exact hs₃
    · exact (List.drop_suffix _ _).trans ((List.suffix_cons _ _).trans hs₃)
  next =>
    obtain rfl := Option.some.inj h
    exact hs₃

theorem offset?_suffix {r : Int × List Char} (h : offset? s = some r) : r.2 <:+ s := by
  unfold offset? at h
  split at h
  next => cases h
  next c rest =>
    split_ifs at h
    · obtain rfl := Option.some.inj h
      exact List.suffix_cons _ _
    all_goals
      obtain ⟨⟨hours, s₁⟩, hhours, h⟩ := Option.bind_eq_some_iff.1 h
      obtain ⟨t₁, ht₁, h⟩ := Option.bind_eq_some_iff.1 h
      obtain ⟨⟨minutes, s₂⟩, hminutes, h⟩ := Option.bind_eq_some_iff.1 h
      obtain rfl := Option.some.inj h
      exact (expect?_fixed?_suffix ht₁ hminutes).trans ((fixed?_suffix hhours).trans (List.suffix_cons _ _))

theorem clockBehind?_suffix {r : Clock × List Char} (h : clockBehind? s = some r) : r.2 <:+ s := by
  unfold clockBehind? at h
  split at h
  · split_ifs at h
    exact (clock?_suffix h).trans (List.suffix_cons _ _)
  · cases h

theorem dated?_leavesEnd {x : Except Error (Reading Value)} (h : dated? s = some x) : LeavesEnd Prod.snd s x := by
  unfold dated? at h
  obtain ⟨⟨year, s₁⟩, hyear, h⟩ := Option.bind_eq_some_iff.1 h
  obtain ⟨t₁, ht₁, h⟩ := Option.bind_eq_some_iff.1 h
  obtain ⟨⟨month, s₂⟩, hmonth, h⟩ := Option.bind_eq_some_iff.1 h
  obtain ⟨t₂, ht₂, h⟩ := Option.bind_eq_some_iff.1 h
  obtain ⟨⟨day, s₃⟩, hday, h⟩ := Option.bind_eq_some_iff.1 h
  have hs₃ : s₃ <:+ s := (expect?_fixed?_suffix ht₂ hday).trans
    ((expect?_fixed?_suffix ht₁ hmonth).trans (fixed?_suffix hyear))
  dsimp only at h
  split at h
  next =>
    split at h
    all_goals obtain rfl := Option.some.inj h
    · exact leavesEnd_ok hs₃
    · exact leavesEnd_refuse
  next clock rest hclock =>
    have hrest : rest <:+ s := (clockBehind?_suffix hclock).trans hs₃
    cases hoffset : offset? rest with
    | none =>
      rw [hoffset] at h
      dsimp only at h
      split at h
      all_goals obtain rfl := Option.some.inj h
      · exact leavesEnd_ok hrest
      · exact leavesEnd_refuse
    | some r =>
      rw [hoffset] at h
      dsimp only at h
      split at h
      all_goals obtain rfl := Option.some.inj h
      · exact leavesEnd_ok ((offset?_suffix hoffset).trans hrest)
      · exact leavesEnd_refuse

theorem timeOfDay?_suffix {r : Value × List Char} (h : timeOfDay? s = some r) : r.2 <:+ s := by
  obtain ⟨⟨clock, rest⟩, hclock, rfl⟩ := Option.map_eq_some_iff.1 h
  exact clock?_suffix hclock

theorem number?_leavesEnd {x : Except Error (Reading Value)} (h : number? s = some x) : LeavesEnd Prod.snd s x := by
  unfold number? at h
  split at h
  next r hr =>
    obtain rfl := Option.some.inj h
    exact leavesEnd_ok (basedInteger?_suffix hr)
  next => exact decimal?_leavesEnd h

theorem scalar_leavesEnd (s : List Char) : LeavesEnd Prod.snd s (scalar s) := by
  unfold scalar
  cases hdated : dated? s with
  | some x => exact dated?_leavesEnd hdated
  | none =>
  cases htime : timeOfDay? s with
  | some r => exact leavesEnd_ok (timeOfDay?_suffix htime)
  | none =>
  cases hnumber : number? s with
  | some x => exact number?_leavesEnd hnumber
  | none =>
  cases hspecial : specialFloat? s with
  | some r => exact leavesEnd_ok (specialFloat?_suffix hspecial)
  | none => exact leavesEnd_refuse

end NoteVault.Toml
