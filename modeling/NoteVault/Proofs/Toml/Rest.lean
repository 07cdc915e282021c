import NoteVault.Number.Limit
import NoteVault.Proofs.Failure
import NoteVault.Toml.Text

/-!
Reading a settings file walks through its text: each part that is read leaves an end of what was there, and fails other
than with a fault only where a run of too many digits stands. First the small parts: comments, quoted texts and keys.
-/
namespace NoteVault.Toml

/-- A run of so many digits stands in the text, which may have underscores in it. -/
def HoldsDigits (s : List Char) (n : Nat) : Prop :=
  ∃ run, run <:+: s ∧ (∀ c ∈ run, c.isDigit = true ∨ c = '_') ∧ run.countP Char.isDigit = n

theorem HoldsDigits.le_length {s : List Char} {n : Nat} (h : HoldsDigits s n) : n ≤ s.length := by
  obtain ⟨run, hrun, -, rfl⟩ := h
  exact Nat.le_trans List.countP_le_length hrun.length_le

/-- Too many digits for an integer. -/
def HoldsLong (s : List Char) (n : Nat) : Prop := Number.maxDigits < n ∧ HoldsDigits s n

/-- What has been read leaves an end of the characters, and no other failure than a fault arises from them, except for
too many digits. -/
def LeavesEnd {α : Type} (rest : α → List Char) (s : List Char) (x : Except Error α) : Prop :=
  (∀ a, x = .ok a → rest a <:+ s) ∧ ∀ n, x = .error (.longInteger n) → HoldsLong s n

section LeavesEnd

variable {α β : Type} {rest : α → List Char} {rest' : β → List Char} {s t : List Char} {x : Except Error α}

theorem HoldsLong.mono {n : Nat} (h : HoldsLong t n) (hts : t <:+ s) : HoldsLong s n := by
  obtain ⟨hlong, run, hrun, hdigits, hcount⟩ := h
  exact ⟨hlong, run, hrun.trans hts.isInfix, hdigits, hcount⟩

theorem leavesEnd_ok {a : α} (h : rest a <:+ s) : LeavesEnd rest s (.ok a) :=
  ⟨fun _ ha => Except.ok.inj ha ▸ h, nofun⟩

theorem leavesEnd_refuse {p : Problem} : LeavesEnd rest s (refuse p t) :=
  ⟨nofun, fun _ h => by cases h⟩

theorem LeavesEnd.mono (h : LeavesEnd rest t x) (hts : t <:+ s) : LeavesEnd rest s x :=
  ⟨fun a ha => (h.1 a ha).trans hts, fun n hn => (h.2 n hn).mono hts⟩

theorem LeavesEnd.bind {f : α → Except Error β} (h : LeavesEnd rest s x)
    (hf : ∀ a, LeavesEnd rest' (rest a) (f a)) : LeavesEnd rest' s (x >>= f) := by
  cases x with
  | ok a => exact (hf a).mono (h.1 a rfl)
  | error e => exact ⟨nofun, fun n hn => h.2 n (congrArg Except.error (Except.error.inj hn))⟩

theorem LeavesEnd.map {f : α → β} (h : LeavesEnd rest s x) (hf : ∀ a, rest' (f a) <:+ rest a) :
    LeavesEnd rest' s (x.map f) := by
  cases x with
  | ok a => exact leavesEnd_ok ((hf a).trans (h.1 a rfl))
  | error e => exact ⟨nofun, fun n hn => h.2 n (congrArg Except.error (Except.error.inj hn))⟩

end LeavesEnd

section Text

variable {s : List Char} {multiline : Bool} {quote : Char}

theorem skipBlanks_suffix (s : List Char) : skipBlanks s <:+ s := List.dropWhile_suffix _

theorem refuseIllegal_leavesEnd {illegal : Char → Bool} {body t : List Char} (after : List Char) :
    LeavesEnd (fun _ => after) after (refuseIllegal illegal body t) := by
  unfold refuseIllegal
  split
  · exact leavesEnd_refuse
  · exact leavesEnd_ok (List.suffix_refl _)

theorem skipComment_leavesEnd (s : List Char) : LeavesEnd id s (skipComment s) := by
  unfold skipComment
  split
  next rest =>
    refine ((refuseIllegal_leavesEnd rest).mono (List.suffix_cons _ _)).bind fun _ => ?_
    exact leavesEnd_ok (List.dropWhile_suffix _)
  next => exact leavesEnd_ok (List.suffix_refl _)

theorem upTo_suffix {quotes : List Char} {r : List Char × List Char} (h : upTo quotes s = some r) : r.2 <:+ s := by
  induction s generalizing r with
  | nil => cases h
  | cons c rest ih =>
    rw [upTo] at h
    split at h
    · cases h
      exact List.drop_suffix _ _
    · obtain ⟨r', hr', rfl⟩ := Option.map_eq_some_iff.1 h
      exact (ih hr').trans (List.suffix_cons _ _)

theorem literalText_leavesEnd (quotes : List Char) (s : List Char) :
    LeavesEnd Prod.snd s (literalText quotes multiline s) := by
  unfold literalText
  split
  next => exact leavesEnd_refuse
  next body after hupTo =>
    have hafter : after <:+ s := upTo_suffix hupTo
    refine ((refuseIllegal_leavesEnd after).mono hafter).bind fun _ => ?_
    exact leavesEnd_ok (List.suffix_refl _)

theorem hexChar_leavesEnd (width : Nat) (s : List Char) : LeavesEnd Prod.snd s (hexChar width s) := by
  unfold hexChar
  dsimp only
  cases (s.take width).mapM hexDigitValue? with
  | none => exact leavesEnd_refuse
  | some ds =>
    dsimp only
    split_ifs
    · exact leavesEnd_refuse
    · exact leavesEnd_ok (List.drop_suffix _ _)
    · exact leavesEnd_refuse

theorem escape_leavesEnd (s : List Char) : LeavesEnd Prod.snd s (escape multiline s) := by
  unfold escape
  split
  next => exact leavesEnd_refuse
  next c rest =>
    refine LeavesEnd.mono (t := rest) ?_ (List.suffix_cons _ _)
    split_ifs
    · exact leavesEnd_ok (List.dropWhile_suffix _)
    · have hblanks := skipBlanks_suffix rest
      split
      next => exact leavesEnd_ok (List.nil_suffix)
      next after hafter =>
        rw [hafter] at hblanks
        exact leavesEnd_ok ((List.dropWhile_suffix _).trans ((List.suffix_cons _ _).trans hblanks))
      next => exact leavesEnd_refuse
    · exact hexChar_leavesEnd 4 rest
    · exact hexChar_leavesEnd 8 rest
    · split
      · exact leavesEnd_ok (List.suffix_refl _)
      · exact leavesEnd_refuse

theorem basicText_leavesEnd (fuel : Nat) (s : List Char) : LeavesEnd Prod.snd s (basicText multiline fuel s) := by
  induction fuel generalizing s with
  | zero => exact leavesEnd_refuse
  | succ fuel ih =>
    have hmore : ∀ rest cs : List Char,
        LeavesEnd Prod.snd rest (basicText multiline fuel rest >>= fun r => .ok (cs ++ r.1, r.2)) := fun rest cs =>
      (ih rest).bind fun _ => leavesEnd_ok (List.suffix_refl _)
    unfold basicText
    split
    next => exact leavesEnd_refuse
    next rest =>
      split_ifs
      · split
        next after => exact leavesEnd_ok ⟨['"', '"', '"'], rfl⟩
        next => exact (hmore rest ['"']).mono (List.suffix_cons _ _)
      · exact leavesEnd_ok (List.suffix_cons _ _)
    next rest =>
      exact ((escape_leavesEnd rest).mono (List.suffix_cons _ _)).bind fun _ => hmore _ _
    next c rest _ _ =>
      split_ifs
      · exact leavesEnd_refuse
      · exact (hmore rest [c]).mono (List.suffix_cons _ _)

theorem dropBreak_suffix (s : List Char) : dropBreak s <:+ s := by
  unfold dropBreak
  split
  · exact List.suffix_cons _ _
  · exact List.suffix_refl _

theorem quotedText_leavesEnd (s : List Char) : LeavesEnd Prod.snd s (quotedText quote multiline s) := by
  unfold quotedText
  split_ifs
  · refine LeavesEnd.mono (t := dropBreak s) ?_ (dropBreak_suffix s)
    exact (basicText_leavesEnd _ _).bind fun _ => leavesEnd_ok (List.drop_suffix _ _)
  · refine LeavesEnd.mono (t := dropBreak s) ?_ (dropBreak_suffix s)
    have hliteral : LeavesEnd Prod.snd (dropBreak s)
        ((literalText [quote, quote, quote] true (dropBreak s)).map fun r => (r.1.toList, r.2)) :=
      (literalText_leavesEnd _ _).map fun _ => List.suffix_refl _
    exact hliteral.bind fun _ => leavesEnd_ok (List.drop_suffix _ _)
  · exact (basicText_leavesEnd _ s).bind fun _ => leavesEnd_ok (List.suffix_refl _)
  · exact literalText_leavesEnd _ s

theorem keyPart_leavesEnd (s : List Char) : LeavesEnd Prod.snd s (keyPart s) := by
  unfold keyPart
  split
  next rest => exact (quotedText_leavesEnd rest).mono (List.suffix_cons _ _)
  next rest => exact (quotedText_leavesEnd rest).mono (List.suffix_cons _ _)
  next =>
    dsimp only
    split_ifs
    · exact leavesEnd_refuse
    · exact leavesEnd_ok (List.dropWhile_suffix _)

theorem keyRest_leavesEnd (fuel : Nat) (s : List Char) : LeavesEnd Prod.snd s (keyRest fuel s) := by
  induction fuel generalizing s with
  | zero => exact leavesEnd_ok (List.suffix_refl _)
  | succ fuel ih =>
    have hblanks := skipBlanks_suffix s
    unfold keyRest
    split
    next rest hrest =>
      have hbehind : skipBlanks rest <:+ s :=
        (skipBlanks_suffix rest).trans ((List.suffix_cons _ _).trans (hrest ▸ hblanks))
      refine ((keyPart_leavesEnd _).mono hbehind).bind fun r => ?_
      exact (ih r.2).bind fun _ => leavesEnd_ok (List.suffix_refl _)
    next => exact leavesEnd_ok hblanks

theorem key_leavesEnd (s : List Char) : LeavesEnd Prod.snd s (key s) := by
  unfold key
  refine (keyPart_leavesEnd s).bind fun r => ?_
  exact (keyRest_leavesEnd _ r.2).bind fun _ => leavesEnd_ok (List.suffix_refl _)

end Text

end NoteVault.Toml
