import NoteVault.Proofs.Yaml.Scan.Word

/-!
Simple keys. A scalar at the beginning of a line is kept as a candidate, and the colon behind it turns it
into a key, in front of which a mapping opens if none is open at its column.
-/
namespace NoteVault.Yaml.Scan

open Form (spaces)

variable {u s v : Scan} {rest w t r : List Char} {x : Char} {m n k column : Nat} {kinds : List TokenKind}
  {columns cs ds : List Int} {kinds' : List TokenKind} {columns' : List Int}

theorem saveKey_line (h : AtLine u rest m kinds cs) :
    u.saveKey = .ok { u with simpleKey := some ⟨u.count, decide (u.indent = m), u.cursor.mark⟩ } := by
  have hreq : (!u.inFlow && decide (u.indent = u.cursor.column)) = decide (u.indent = m) := by
    rw [h.column, inFlow_eq h.toAt]
    rfl
  rw [saveKey, if_pos h.allowed, hreq, dropKey_none h.noKey]
  rfl

/-- The scanner behind a scalar that may become a key. -/
def candidate (u : Scan) (kind : TokenKind) (stop : Mark) (length : Nat) : Scan :=
  { ({ u with simpleKey := some ⟨u.count, decide (u.indent = u.cursor.column), u.cursor.mark⟩ } : Scan).push kind
      u.cursor.mark stop with
    cursor := u.cursor.skip length, keyAllowed := false }

/-- A candidate of one line and at most 1024 characters is kept. -/
theorem settle_candidate (h : AtLine u (w ++ ':' :: t) m kinds cs) (hflat : ∀ y ∈ w, isFlat y = true)
    (hlen : w.length ≤ 1024) (hm : u.indent ≤ m) (kind : TokenKind) (stop : Mark) :
    (candidate u kind stop w.length).dropStale = .ok (candidate u kind stop w.length) ∧
      (candidate u kind stop w.length).settle = .ok (candidate u kind stop w.length) := by
  have hmark := Cursor.mark_skip_flat h.rest hflat
  have hfresh : ∀ k, (candidate u kind stop w.length).simpleKey = some k →
      (candidate u kind stop w.length).isStale k = false := by
    rintro k ⟨rfl⟩
    simp [isStale, candidate, hmark, hlen]
  have hdrop := dropStale_fresh (s := candidate u kind stop w.length) h.outer hfresh
  have hrest : (candidate u kind stop w.length).cursor.rest = ':' :: t := Cursor.rest_skip_append h.rest
  have hto : (candidate u kind stop w.length).toToken = candidate u kind stop w.length :=
    toToken_blanks (j := 0) hrest (startsToken_cons (by decide) (by decide))
  have hat : At (candidate u kind stop w.length) (':' :: t) (m + w.length) (kind :: kinds) cs := by
    refine ⟨hrest, ?_, by simp [candidate, Scan.push, h.kinds], by simp [candidate, Scan.push, h.count], h.outer,
      h.columns⟩
    rw [← h.column]
    exact Cursor.column_skip_flat h.rest hflat
  refine ⟨hdrop, ?_⟩
  rw [settle, hto, hdrop]
  dsimp only [bind, Except.bind, pure, Except.pure]
  rw [closeTo_within hat ⟨u.indent, u.indents, h.columns.symm, by rw [hat.column]; push_cast; omega⟩]

/-- The tokens that a colon puts in front of its key. -/
theorem value_candidate (h : AtLine u (w ++ ':' :: t) m kinds columns) (hflat : ∀ y ∈ w, isFlat y = true)
    (hopen : Opens .blockMappingStart m u.indent kinds columns kinds' columns') (kind : TokenKind) (stop : Mark) :
    ∃ z, (candidate u kind stop w.length).value = .ok z ∧ z.simpleKey = none ∧ z.indent = m ∧
      z.cursor = (u.cursor.skip w.length).skip 1 ∧
      At z t (m + w.length + 1) (.value :: kind :: .key :: kinds') columns' := by
  have hcol : u.cursor.mark.column = m := h.column
  have hrest : (u.cursor.skip w.length).rest = ':' :: t := Cursor.rest_skip_append h.rest
  have hafter : ((u.cursor.skip w.length).skip 1).rest = t := Cursor.rest_next_cons hrest
  have hcolumn : ((u.cursor.skip w.length).skip 1).column = m + w.length + 1 := by
    have := Cursor.column_skip_flat (s := [':']) (t := t) hrest (by simp [isFlat, isBreak])
    rw [List.length_singleton, Cursor.column_skip_flat h.rest hflat, h.column] at this
    exact this
  have hdiff : u.count + 1 + 1 - u.count = 2 := by omega
  cases hopen with
  | first hm =>
    refine ⟨_, by simp [value, candidate, Scan.push, insert, inFlow, h.outer, open?, hcol, hm, hdiff]; rfl, rfl, rfl,
      rfl, ⟨hafter, hcolumn, ?_, ?_, rfl, ?_⟩⟩
    · simp [Scan.pushSign, Scan.push, h.kinds]
    · simp [Scan.pushSign, Scan.push, h.count]
    · simp [Scan.pushSign, Scan.push, h.columns]
  | next hm =>
    refine ⟨_, by simp [value, candidate, Scan.push, insert, inFlow, h.outer, open?, hcol, hm]; rfl, rfl, rfl, rfl,
      ⟨hafter, hcolumn, ?_, ?_, rfl, ?_⟩⟩
    · simp [Scan.pushSign, Scan.push, h.kinds]
    · simp [Scan.pushSign, Scan.push, h.count]
    · simp [Scan.pushSign, Scan.push, ← h.columns, hm]

/-- A scalar and the colon behind it. -/
theorem passes_key (h : AtLine u (x :: w ++ ':' :: t) m kinds columns) (hflat : ∀ y ∈ x :: w, isFlat y = true)
    (hlen : (x :: w).length ≤ 1024) (ht : isGap t = true)
    (hopen : Opens .blockMappingStart m u.indent kinds columns kinds' columns') {kind : TokenKind} {stop : Mark}
    (htoken : u.token x = .ok (candidate u kind stop (x :: w).length)) :
    ∃ s, Passes u s ∧ Behind s t m false (.value :: kind :: .key :: kinds') columns' := by
  have hrest : (candidate u kind stop (x :: w).length).cursor.rest = ':' :: t := Cursor.rest_skip_append h.rest
  obtain ⟨hdrop, hsettle⟩ := settle_candidate h hflat hlen hopen.indent_le kind stop
  obtain ⟨z, hz, hnone, hind, hcursorz, hat⟩ := value_candidate h hflat hopen kind stop
  obtain ⟨s, hs, hats, hidle, -, hkey, hcursor, hindent⟩ := dropStale_at hat (isIdle_of_none hnone)
  have hfirst : Turn u (candidate u kind stop (x :: w).length) :=
    ⟨x, _, by rw [Cursor.peek_eq, h.rest]; rfl, htoken, hdrop, by rw [hrest, h.rest]; simp, _, rfl⟩
  have hsecond : Turn (candidate u kind stop (x :: w).length) s :=
    ⟨':', z, by rw [Cursor.peek_eq, hrest]; rfl, (token_colon hrest ht).trans hz, hs, by rw [hats.rest, hrest]; simp,
      1, hcursor.trans hcursorz⟩
  have hcols := hats.column
  exact ⟨s, Passes.trans hfirst.passes (.here hsettle ⟨0, rfl⟩) hsecond.passes,
    ⟨⟨by rw [hcols]; exact hats, by omega, hindent.trans hind, hidle⟩, hkey hnone, by simp⟩⟩

/-- A plain text as a key. -/
theorem token_plainKey (h : AtLine u (x :: w ++ ':' :: t) m kinds cs) (hw : Form.allowsPlain (x :: w) = true)
    (hm : u.indent ≤ m) (ht : isGap t = true) :
    ∃ stop, u.token x = .ok (candidate u (.scalar (String.ofList (x :: w)) .plain) stop (x :: w).length) := by
  have hread := Cursor.plain_key (u.indent + 1) h.rest hw (by simp)
    (by rw [h.column]; omega) (endsWord_of_isGap ht)
  refine ⟨(u.cursor.skip (x :: w).length).mark, (token_plain h.rest hw ⟨_, _, rfl, .inl rfl⟩ h.outer).trans ?_⟩
  rw [plain_of_saveKey h.outer (saveKey_line h) hread, candidate, h.column]

/-- A text between quotes as a key. -/
theorem withText_key (read : Cursor → Except Error (TokenKind × Cursor)) {kind : TokenKind}
    (h : AtLine u (w ++ ':' :: t) m kinds cs) (hread : read u.cursor = .ok (kind, u.cursor.skip w.length)) :
    u.withText read = .ok (candidate u kind (u.cursor.skip w.length).mark w.length) := by
  rw [withText, saveKey_line h]
  dsimp only [bind, Except.bind]
  rw [hread, candidate, h.column]

end NoteVault.Yaml.Scan
