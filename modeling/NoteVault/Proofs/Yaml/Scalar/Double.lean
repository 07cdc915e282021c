import NoteVault.Proofs.Text.Digits
import NoteVault.Proofs.Yaml.Scalar.Single

/-!
Scalars between double quotes. Every text at all is read back as it was: what cannot stand there has an
escape, by a letter or by its number.
-/
namespace NoteVault.Yaml

open Form (isBare doubleChar upperHex)

/-- What a hexadecimal digit stands for. -/
def hexDigit (c : Char) : Nat :=
  if c.isDigit then c.toNat - 48 else if c.isLower then c.toNat - 87 else c.toNat - 55

theorem hexValue_eq_valueOf (ds : List Char) : hexValue ds = Text.valueOf 16 hexDigit ds := rfl

theorem hexDigit_toUpper : ∀ d < 16, hexDigit (Nat.digitChar d).toUpper = d := by decide

theorem hexValue_upperHex (w n : Nat) : hexValue (upperHex w n) = n := by
  have h0 : hexDigit ('0' : Char).toUpper = 0 := by decide
  rw [hexValue_eq_valueOf, Text.valueOf, upperHex, List.foldl_map]
  exact (Text.valueOf_replicate_zero (fun c => hexDigit c.toUpper) h0 _ _).trans
    (Text.valueOf_toDigits (by decide) hexDigit_toUpper n)

theorem length_upperHex {w n : Nat} (hw : 0 < w) (hn : n < 16 ^ w) : (upperHex w n).length = w := by
  have := (Nat.length_toDigits_le_iff (b := 16) (by decide) hw).2 hn
  simp [upperHex, Text.hex]
  omega

theorem isHexDigit_upperHex {w n : Nat} {c : Char} (h : c ∈ upperHex w n) : isHexDigit c = true := by
  simp only [upperHex, Text.hex, List.mem_map, List.mem_append] at h
  obtain ⟨a, ha | ha, rfl⟩ := h
  · rw [(List.mem_replicate.1 ha).2]; decide
  · obtain ⟨d, hd, rfl⟩ := Text.exists_digit_of_mem_toDigits (by decide) ha
    exact (by decide : ∀ d < 16, isHexDigit (Nat.digitChar d).toUpper = true) d hd

theorem isFlat_of_isBare {c : Char} (h : isBare c = true) : isFlat c = true ∧ c ≠ '\t' ∧ c ≠ '"' ∧ c ≠ '\\' := by
  have hne : ∀ d : Char, isBare d = false → c ≠ d := fun d hd he => by simp [he, hd] at h
  exact ⟨isFlat_of_class h (by decide), hne '\t' (by decide), hne '"' (by decide), hne '\\' (by decide)⟩

/-- The letters that are written behind a backslash are read as the characters they were written for. -/
theorem lookup_escapeLetters {c letter : Char} (h : Form.escapeLetters.lookup c = some letter) :
    Cursor.escapeLetters.lookup letter = some c := by
  have hm : ∀ e ∈ Form.escapeLetters, Cursor.escapeLetters.lookup e.2 = some e.1 := by decide
  rw [List.lookup_eq_some_iff] at h
  obtain ⟨l₁, l₂, hl, -⟩ := h
  exact hm (c, letter) (by simp [hl])

namespace Cursor

variable {start : Mark}

theorem hexEscape_upperHex {c : Cursor} {w : Nat} {d : Char} {t : List Char} (h : c.rest = upperHex w d.toNat ++ t)
    (hw : 0 < w) (hd : d.toNat < 16 ^ w) : hexEscape start w c = .ok (d, c.skip w) := by
  have hlen := length_upperHex hw hd
  have htake : (c.rest.take w).takeWhile isHexDigit = upperHex w d.toNat := by
    rw [h, List.take_left' hlen]
    have hall : ∀ x ∈ upperHex w d.toNat, isHexDigit x = true := fun x hx => isHexDigit_upperHex hx
    have happ := @List.takeWhile_append_of_pos _ isHexDigit _ [] hall
    rwa [List.append_nil, List.takeWhile_nil, List.append_nil] at happ
  have hrange : d.toNat < 0x110000 := by
    rcases d.valid with h | h
    · exact Nat.lt_trans h (by decide)
    · exact h.2
  unfold hexEscape
  rw [htake]
  dsimp only
  rw [if_pos hlen, hexValue_upperHex, charOf, if_pos hrange, Char.ofNat_toNat]
  rfl

/-- A character that is escaped is read as itself. -/
theorem quotedStep_escaped {c : Cursor} {d : Char} {t : List Char} (h : c.rest = doubleChar d ++ t)
    (hd : isBare d = false) :
    quotedStep true start c = .ok (some [d], c.skip (doubleChar d).length) := by
  have key : ∀ {x : Char} {u : List Char}, doubleChar d = '\\' :: x :: u →
      escape start c.next = .ok ([d], (c.next).skip (u.length + 1)) →
      quotedStep true start c = .ok (some [d], c.skip (doubleChar d).length) := by
    intro x u hx he
    rw [quotedStep, peek_eq, h, hx, List.cons_append, List.head?_cons]
    dsimp only
    rw [if_neg (by decide), if_pos rfl, if_neg (by decide), if_pos rfl, he]
    rfl
  have hnum : ∀ {x : Char} {w : Nat}, doubleChar d = '\\' :: x :: upperHex w d.toNat →
      escapeLetters.lookup x = none → escapeNumbers.lookup x = some w → 0 < w → d.toNat < 16 ^ w →
      quotedStep true start c = .ok (some [d], c.skip (doubleChar d).length) := by
    intro x w hx hletter hnumber hw hrange
    rw [hx, List.cons_append, List.cons_append] at h
    have hnext := rest_next_cons h
    refine key hx ?_
    rw [escape, peek_eq, hnext, List.head?_cons]
    dsimp only
    rw [hletter, hnumber]
    dsimp only
    rw [hexEscape_upperHex (rest_next_cons hnext) hw hrange, length_upperHex hw hrange]
    rfl
  cases hl : Form.escapeLetters.lookup d with
  | some letter =>
    have hx : doubleChar d = ['\\', letter] := by simp [doubleChar, hd, hl]
    rw [hx, List.cons_append, List.cons_append] at h
    refine key hx ?_
    rw [escape, peek_eq, rest_next_cons h, List.head?_cons]
    dsimp only
    rw [lookup_escapeLetters hl]
    rfl
  | none =>
    by_cases h2 : d.toNat ≤ 0xFF
    · exact hnum (x := 'x') (w := 2) (by simp [doubleChar, hd, hl, h2]) (by decide) (by decide) (by decide) (by omega)
    by_cases h4 : d.toNat ≤ 0xFFFF
    · exact hnum (x := 'u') (w := 4) (by simp [doubleChar, hd, hl, h2, h4]) (by decide) (by decide) (by decide)
        (by omega)
    · have hlt : d.toNat < 0x110000 := by
        rcases d.valid with h | h
        · exact Nat.lt_trans h (by decide)
        · exact h.2
      exact hnum (x := 'U') (w := 8) (by simp [doubleChar, hd, hl, h2, h4]) (by decide) (by decide) (by decide)
        (by omega)

theorem flatMap_doubleChar_blanks (j : Nat) (t : List Char) :
    (List.replicate j ' ' ++ t).flatMap doubleChar = List.replicate j ' ' ++ t.flatMap doubleChar := by
  induction j with
  | zero => rfl
  | succ j ih =>
    rw [List.replicate_succ, List.cons_append, List.flatMap_cons, ih]
    rfl

theorem doubleChar_ne_nil (d : Char) : doubleChar d ≠ [] := by
  unfold doubleChar
  split
  · simp
  · split
    · simp
    · dsimp only
      split <;> [skip; split] <;> simp

/-- Behind blanks the line goes on: with a character, with an escape or with the closing quote. -/
theorem endsGap_flatMap_doubleChar {t : List Char} (ht : t.head? ≠ some ' ') (tail : List Char) :
    endsGap (t.flatMap doubleChar ++ '"' :: tail) = true := by
  cases t with
  | nil => rfl
  | cons d t =>
    rw [List.flatMap_cons]
    by_cases hd : isBare d = true
    · have hf := isFlat_of_isBare hd
      simp only [isFlat, Bool.and_eq_true, Bool.not_eq_true', decide_eq_true_eq] at hf
      have hblank : d ≠ ' ' := by simpa using ht
      simp [doubleChar, hd, endsGap, hf, hblank]
    · obtain ⟨u, hu⟩ : ∃ u, doubleChar d = '\\' :: u := by
        unfold doubleChar
        rw [if_neg hd]
        split
        · exact ⟨_, rfl⟩
        · dsimp only
          split <;> [skip; split] <;> exact ⟨_, rfl⟩
      rw [hu]
      rfl

theorem quotedStep_double_close {c : Cursor} {tail : List Char} (h : c.rest = '"' :: tail) :
    quotedStep true start c = .ok (none, c.next) := by
  rw [quotedStep, peek_eq, h, List.head?_cons]
  dsimp only
  rw [if_neg (by decide), if_pos rfl, if_pos rfl]

/-- A character other than a blank is read as itself, with or without an escape. -/
theorem quotedStep_double {c : Cursor} {d : Char} {t : List Char} (hblank : d ≠ ' ') (h : c.rest = doubleChar d ++ t) :
    quotedStep true start c = .ok (some [d], c.skip (doubleChar d).length) := by
  by_cases hd : isBare d = true
  · obtain ⟨hflat, htab, hquote, hslash⟩ := isFlat_of_isBare hd
    simp only [isFlat, Bool.and_eq_true, Bool.not_eq_true', decide_eq_true_eq] at hflat
    have hone : doubleChar d = [d] := by simp [doubleChar, hd]
    rw [hone] at h ⊢
    rw [quotedStep, peek_eq, h, List.cons_append, List.head?_cons]
    dsimp only
    rw [if_neg (by simp [hblank, htab, hflat]), if_pos rfl, if_neg hquote, if_neg hslash]
    rfl
  · exact quotedStep_escaped h (by simpa using hd)

/-- A turn reads a run of blanks, behind which the line goes on, or one character. -/
theorem readsRun_double {c : Cursor} {s tail : List Char} (hne : s ≠ [])
    (h : c.rest = s.flatMap doubleChar ++ '"' :: tail) :
    ReadsRun true start (List.flatMap doubleChar) ('"' :: tail) c s := by
  obtain ⟨d, s, rfl⟩ := List.exists_cons_of_ne_nil hne
  by_cases hblank : d = ' '
  · subst hblank
    obtain ⟨i, t, hst, htblank⟩ := exists_blanks s
    rw [hst, flatMap_doubleChar_blanks, List.append_assoc] at h
    have hspaces := quotedSpaces_blanks start h (endsGap_flatMap_doubleChar htblank tail) (by simp)
    refine ⟨_, t, _, hst, by simp, quotedStep_gap (by rw [h, List.replicate_succ]; rfl) (.inl rfl) hspaces, ?_, ?_⟩
    · simpa using rest_skip_append h
    · rw [hst, flatMap_doubleChar_blanks, List.length_append, List.length_replicate]
  · rw [List.flatMap_cons, List.append_assoc] at h
    exact ⟨[d], s, _, rfl, by simp, quotedStep_double hblank h, rest_skip_append h, by
      rw [List.flatMap_cons, List.length_append]⟩

/-- A text between double quotes. -/
theorem quoted_double {c : Cursor} {n : Nat} {s tail : List Char} (h : c.rest = Form.body n .double s ++ tail) :
    c.quoted true = .ok (s, c.skip (Form.body n .double s).length) := by
  have hbody : Form.body n .double s = '"' :: (s.flatMap doubleChar ++ ['"']) := rfl
  rw [hbody, List.cons_append, List.append_assoc] at h
  have hlen : s.length ≤ (s.flatMap doubleChar).length := by
    clear h hbody
    induction s with
    | nil => exact le_rfl
    | cons d s ih =>
      have hpos := List.length_pos_iff.2 (doubleChar_ne_nil d)
      simp only [List.flatMap_cons, List.length_append, List.length_cons]
      omega
  have hread := quotedFrom_runs c.mark (List.flatMap doubleChar) (fun _ => True) rfl (fun _ => trivial)
    quotedStep_double_close (fun _ => readsRun_double) (c.rest.length + 1) trivial (rest_next_cons h)
    (by rw [h]; simp at hlen ⊢; omega)
  rw [quoted, hread, hbody]
  simp [skip]

end Cursor

end NoteVault.Yaml
