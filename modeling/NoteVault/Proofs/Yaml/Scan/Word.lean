import NoteVault.Proofs.Yaml.Scalar.Double
import NoteVault.Proofs.Yaml.Scalar.Literal
import NoteVault.Proofs.Yaml.Scan.Turn
import NoteVault.Yaml.Block

/-!
Tokens that stand inside a content: anchors, aliases, tags, scalars and empty brackets.
-/
namespace NoteVault.Yaml.Scan

open Form (spaces)

/-- Whatever the second state leads to, the first one does. -/
def Continues (s t : Scan) : Prop := ∀ {v : Scan}, Leads t v → Leads s v

theorem Continues.trans {s t u : Scan} (h : Continues s t) (h' : Continues t u) : Continues s u := fun hv => h (h' hv)

variable {u s : Scan} {rest w t r : List Char} {n k column : Nat} {kinds : List TokenKind} {columns cs ds : List Int}

/-- To the word behind a blank. -/
theorem Inside.settle (h : Inside s (' ' :: r) n kinds cs) (hr : StartsToken r) :
    ∃ u, s.settle = .ok u ∧ At u r (s.cursor.column + 1) kinds cs ∧ u.IsIdle ∧ u.cursor = s.cursor.skip 1 ∧
      u.indent = n ∧ u.keyAllowed = s.keyAllowed ∧ (s.simpleKey = none → u.simpleKey = none) := by
  have hwithin : isWithin ((s.cursor.column : Int) + (1 : Nat)) cs :=
    ⟨s.indent, s.indents, h.columns.symm, by rw [h.indent]; have := h.deeper; omega⟩
  obtain ⟨u, hu, hat, hidle, hallowed, hkey, hcursor⟩ := settle_blanks (j := 1) h.toAt hr h.idle hwithin
  have hindent : u.indent = n :=
    (List.cons.inj (hat.columns.trans h.columns.symm)).1.trans h.indent
  exact ⟨u, hu, hat, hidle, hcursor, hindent, hallowed, hkey⟩

theorem saveKey_idle (h : At u rest column kinds cs) (hidle : u.IsIdle) (hn : u.indent < column) :
    ∃ key, u.saveKey = .ok { u with simpleKey := key } ∧
      ∀ k, key = some k → k.required = false ∧ k.mark.line ≤ u.cursor.mark.line := by
  by_cases hallowed : u.keyAllowed = true
  · have hdrop : u.dropKey = .ok { u with simpleKey := none } := by
      cases hk : u.simpleKey with
      | none => rw [dropKey_none hk, ← hk]
      | some k =>
        rw [dropKey, hk]
        dsimp only
        rw [if_neg (by simp [(hidle k hk).1])]
    have hreq : (!u.inFlow && decide (u.indent = u.cursor.column)) = false := by
      have : u.indent ≠ u.cursor.column := by rw [h.column]; omega
      simp [this]
    refine ⟨some ⟨u.count, false, u.cursor.mark⟩, ?_, ?_⟩
    · rw [saveKey, if_pos hallowed, hreq, hdrop]
      rfl
    · rintro k ⟨rfl⟩
      exact ⟨rfl, le_rfl⟩
  · exact ⟨u.simpleKey, by rw [saveKey, if_neg hallowed], fun k hk => hidle k hk⟩

/-- A token with a text of its own inside a content. -/
theorem withText_inside {read : Cursor → Except Error (TokenKind × Cursor)} {kind : TokenKind}
    (h : At u (w ++ t) column kinds cs) (hidle : u.IsIdle) (hn : u.indent < column)
    (hread : read u.cursor = .ok (kind, u.cursor.skip w.length)) :
    ∃ s, u.withText read = .ok s ∧ At s t s.cursor.column (kind :: kinds) cs ∧ s.IsIdle ∧
      s.cursor = u.cursor.skip w.length ∧ s.indent = u.indent := by
  obtain ⟨key, hsave, hkey⟩ := saveKey_idle h hidle hn
  have hrest : (u.cursor.skip w.length).rest = t := Cursor.rest_skip_append h.rest
  refine ⟨{ ({ u with simpleKey := key }).push kind u.cursor.mark (u.cursor.skip w.length).mark with
    cursor := u.cursor.skip w.length, keyAllowed := false }, ?_, ⟨hrest, rfl, ?_, ?_, h.outer, h.columns⟩,
    fun k hk => ?_, rfl, rfl⟩
  · rw [withText, hsave]
    dsimp only [bind, Except.bind]
    rw [hread]
  · simp [Scan.push, h.kinds]
  · simp [Scan.push, h.count]
  · exact ⟨(hkey k hk).1, (hkey k hk).2.trans (Cursor.line_le_skip _ _)⟩

/-- A word behind a blank, read by a reader of tokens with texts. -/
theorem Inside.word (kind : TokenKind) (read : Cursor → Except Error (TokenKind × Cursor)) {x : Char}
    (h : Inside s (' ' :: (x :: w ++ t)) n kinds cs) (hstart : StartsToken (x :: w ++ t))
    (hread : ∀ {c : Cursor}, c.rest = x :: w ++ t → read c = .ok (kind, c.skip (x :: w).length))
    (htoken : ∀ {u : Scan}, u.cursor.rest = x :: w ++ t → u.outer = [] → u.token x = u.withText read) :
    ∃ s', Continues s s' ∧ At s' t s'.cursor.column (kind :: kinds) cs ∧ s'.IsIdle ∧ s'.indent = n ∧
      ((∀ y ∈ x :: w, isFlat y = true) → Inside s' t n (kind :: kinds) cs) := by
  obtain ⟨u, hu, hat, hidle, hcursor, hindent, -, -⟩ := h.settle hstart
  have hdeep := h.deeper
  obtain ⟨v, hv, hatv, hidlev, hcursorv, hindentv⟩ :=
    withText_inside hat hidle (by rw [hindent]; omega) (hread hat.rest)
  obtain ⟨s', hs', hats', hidles', -, -, hcursors', hindents'⟩ := dropStale_at hatv hidlev
  have hcols : s'.cursor.column = v.cursor.column := by rw [hcursors']
  have hturn : Turn u s' := ⟨x, v, by rw [Cursor.peek_eq, hat.rest]; rfl, (htoken hat.rest hat.outer).trans hv, hs', by
    rw [hats'.rest, hat.rest]
    simp, _, hcursors'.trans hcursorv⟩
  refine ⟨s', fun hl => .more hu ⟨1, hcursor⟩ hturn hl, hcols ▸ hats', hidles',
    hindents'.trans (hindentv.trans hindent),
      fun hflat => ⟨hcols ▸ hats', ?_, hindents'.trans (hindentv.trans hindent), hidles'⟩⟩
  have := Cursor.column_skip_flat hat.rest hflat
  rw [hcols, hcursorv, this, hat.column]
  omega

/-- From behind a word at the end of its line to the next line. -/
theorem leads_line (ds : List Int) (h : At s ('\n' :: (spaces k ++ r)) column kinds (ds ++ cs)) (hidle : s.IsIdle)
    (hr : StartsToken r) (hds : ∀ d ∈ ds, (k : Int) < d) (hcs : isWithin k cs) :
    ∃ v, Leads s v ∧ AtLine v r k (List.replicate ds.length .blockEnd ++ kinds) cs := by
  obtain ⟨v, hv, hat, hcursor⟩ := settle_line h hr hidle hds hcs
  exact ⟨v, .here hv ⟨_, hcursor⟩, hat⟩

theorem not_isNameChar_of_endsWord {c : Char} (h : endsWord (some c) = true) : isNameChar c = false := by
  simp only [endsWord, isBreak, Bool.or_eq_true, decide_eq_true_eq] at h
  rcases h with (rfl | rfl) | (((rfl | rfl) | rfl) | rfl) | rfl <;> decide

theorem isNameChar_anchorName {n : Nat} {c : Char} (h : c ∈ Content.anchorName n) : isNameChar c = true := by
  simp only [Content.anchorName, List.mem_append] at h
  rcases h with (h | h) | h
  · exact List.all_eq_true.1 (by decide : "id".toList.all isNameChar = true) c h
  · rw [(List.mem_replicate.1 h).2]; decide
  · obtain ⟨d, hd, rfl⟩ := Text.exists_digit_of_mem_toDigits (by decide) h
    exact (by decide : ∀ d < 10, isNameChar (Nat.digitChar d) = true) d hd

theorem isFlat_of_isNameChar {c : Char} (h : isNameChar c = true) : isFlat c = true :=
  isFlat_of_class h (by decide)

theorem anchorName_read {c : Cursor} {context : Context} {x : Char} (h : c.rest = x :: w ++ t)
    (hw : ∀ y ∈ w, isNameChar y = true) (hne : w ≠ []) (ht : endsWord t.head? = true) :
    c.anchorName context = .ok (String.ofList w, c.skip (x :: w).length) := by
  have hnext : c.next.rest = w ++ t := Cursor.rest_next_cons h
  have hspan : c.next.span isNameChar = (w, c.next.skip w.length) := by
    refine Cursor.span_eq hnext hw ?_
    cases t with
    | nil => rfl
    | cons d t => simpa using not_isNameChar_of_endsWord ht
  have hrest := Cursor.rest_skip_append hnext
  unfold Cursor.anchorName
  rw [hspan]
  dsimp only
  rw [if_neg (by simpa using hne), if_pos (by rw [Cursor.peek_eq, hrest, endsName, ht, Bool.true_or])]
  rfl

theorem startsToken_cons {x : Char} (h : isFlat x = true) (hx : x ≠ ' ' ∧ x ≠ '#') : StartsToken (x :: t) := by
  simp only [isFlat, Bool.and_eq_true, Bool.not_eq_true', decide_eq_true_eq] at h
  exact ⟨by simpa using hx.1, by simpa using h.1, by simpa using hx.2, by simpa using h.2⟩

/-- An anchor in front of a content. -/
theorem Inside.anchor {m : Nat} (h : Inside s (' ' :: ('&' :: Content.anchorName m ++ t)) n kinds cs)
    (ht : isGap t = true) :
    ∃ s', Continues s s' ∧ Inside s' t n (.anchor (String.ofList (Content.anchorName m)) :: kinds) cs := by
  obtain ⟨s', hs', -, -, -, hin⟩ := h.word (.anchor (String.ofList (Content.anchorName m)))
    (fun c => (c.anchorName .anchorName).map fun p => (.anchor p.1, p.2))
    (startsToken_cons (by decide) (by decide))
    (fun {c} hc => by
      rw [anchorName_read hc (fun _ => isNameChar_anchorName) (by simp [Content.anchorName]) (endsWord_of_isGap ht)]
      rfl)
    (fun {u} hu ho => by
      simp [token, noMark_of_ne hu (by decide), Scan.anchor])
  refine ⟨s', hs', hin fun y hy => ?_⟩
  obtain rfl | hy := List.mem_cons.1 hy
  exacts [by decide, isFlat_of_isNameChar (isNameChar_anchorName hy)]

/-- An alias at the end of its line. -/
theorem Inside.alias {m : Nat}
    (h : Inside s (' ' :: ('*' :: Content.anchorName m ++ '\n' :: (spaces k ++ r))) n kinds (ds ++ cs))
    (hr : StartsToken r) (hds : ∀ d ∈ ds, (k : Int) < d) (hcs : isWithin k cs) :
    ∃ v, Leads s v ∧ AtLine v r k
      (List.replicate ds.length .blockEnd ++ .aliasName (String.ofList (Content.anchorName m)) :: kinds) cs := by
  obtain ⟨s', hs', hat, hidle, -, -⟩ := h.word (.aliasName (String.ofList (Content.anchorName m)))
    (fun c => (c.anchorName .aliasName).map fun p => (.aliasName p.1, p.2))
    (startsToken_cons (by decide) (by decide))
    (fun {c} hc => by
      rw [anchorName_read hc (fun _ => isNameChar_anchorName) (by simp [Content.anchorName]) rfl]
      rfl)
    (fun {u} hu ho => by
      simp [token, noMark_of_ne hu (by decide), Scan.aliasName])
  obtain ⟨v, hv, hatv⟩ := leads_line _ hat hidle hr hds hcs
  exact ⟨v, hs' hv, hatv⟩

/-- A scalar between quotes at the end of its line. -/
theorem Inside.single {i : Nat} {text : List Char}
    (h : Inside s (' ' :: (Form.body i .single text ++ '\n' :: (spaces k ++ r))) n kinds (ds ++ cs))
    (htext : IsSingle text) (hi : 0 < i) (hr : StartsToken r) (hds : ∀ d ∈ ds, (k : Int) < d) (hcs : isWithin k cs) :
    ∃ v, Leads s v ∧ AtLine v r k
      (List.replicate ds.length .blockEnd ++ .scalar (String.ofList text) .single :: kinds) cs := by
  obtain ⟨s', hs', hat, hidle, -, -⟩ := Inside.word (x := '\'') (w := Form.singleBody i false text ++ ['\''])
    (.scalar (String.ofList text) .single)
    (fun c => (c.quoted false).map fun p => (.scalar (String.ofList p.1) .single, p.2)) h
    (startsToken_cons (by decide) (by decide))
    (fun {c} hc => by
      rw [Cursor.quoted_single hc htext hi (by simp)]
      rfl)
    (fun {u} hu ho => by
      simp [token, noMark_of_ne hu (by decide), Scan.quoted])
  obtain ⟨v, hv, hatv⟩ := leads_line _ hat hidle hr hds hcs
  exact ⟨v, hs' hv, hatv⟩

theorem Inside.double {i : Nat} {text : List Char}
    (h : Inside s (' ' :: (Form.body i .double text ++ '\n' :: (spaces k ++ r))) n kinds (ds ++ cs))
    (hr : StartsToken r) (hds : ∀ d ∈ ds, (k : Int) < d) (hcs : isWithin k cs) :
    ∃ v, Leads s v ∧ AtLine v r k
      (List.replicate ds.length .blockEnd ++ .scalar (String.ofList text) .double :: kinds) cs := by
  obtain ⟨s', hs', hat, hidle, -, -⟩ := Inside.word (x := '"') (w := text.flatMap Form.doubleChar ++ ['"'])
    (.scalar (String.ofList text) .double)
    (fun c => (c.quoted true).map fun p => (.scalar (String.ofList p.1) .double, p.2)) h
    (startsToken_cons (by decide) (by decide))
    (fun {c} hc => by
      rw [Cursor.quoted_double (n := i) hc]
      rfl)
    (fun {u} hu ho => by
      simp [token, noMark_of_ne hu (by decide), Scan.quoted])
  obtain ⟨v, hv, hatv⟩ := leads_line _ hat hidle hr hds hcs
  exact ⟨v, hs' hv, hatv⟩

theorem isFlat_of_isAlpha {c : Char} (h : c.isAlpha = true) : isFlat c = true :=
  isFlat_of_isNameChar (by simp [isNameChar, isAsciiAlnum, h])

theorem handle_standard {c : Cursor} (context : Context) (start : Mark) (h : c.rest = '!' :: '!' :: t) :
    c.handle context start = .ok ("!!", c.next.next) := by
  have hnext : c.next.rest = '!' :: t := Cursor.rest_next_cons h
  have hspan : c.next.span isNameChar = ([], c.next) := by
    simpa using Cursor.span_eq (c := c.next) (p := isNameChar) (s := []) hnext (by simp) rfl
  have hfirst : c.at? '!' = true := by rw [Cursor.at?_eq, h]; rfl
  have hsecond : c.next.at? '!' = true ∧ c.next.at? ' ' = false := by
    rw [Cursor.at?_eq, Cursor.at?_eq, hnext]
    exact ⟨rfl, rfl⟩
  simp only [Cursor.handle, hfirst, hsecond, hspan, Bool.not_true, Bool.false_eq_true, if_false, if_true]
  rfl

theorem uri_alpha {c : Cursor} (context : Context) (start : Mark) (h : c.rest = w ++ t)
    (hw : ∀ y ∈ w, y.isAlpha = true) (hne : w ≠ []) (ht : isGap t = true) :
    c.uri context .tagPart start = .ok (String.ofList w, c.skip w.length) := by
  obtain ⟨d, t', rfl, hd⟩ := exists_of_isGap ht
  have huri : ∀ y ∈ w, isUriChar y = true := fun y hy => by simp [isUriChar, isAsciiAlnum, hw y hy]
  have hspan : c.span isUriChar = (w, c.skip w.length) :=
    Cursor.span_eq h huri (by rcases hd with rfl | rfl <;> rfl)
  have hpercent : (c.skip w.length).at? '%' = false := by
    rw [Cursor.at?_eq, Cursor.rest_skip_append h]
    rcases hd with rfl | rfl <;> rfl
  have hmark : (c.skip w.length).mark ≠ c.mark := by
    have := List.length_pos_iff.2 hne
    rw [Cursor.mark_skip_flat h fun y hy => isFlat_of_isAlpha (hw y hy)]
    intro he
    have := congrArg Mark.index he
    dsimp only at this
    omega
  unfold Cursor.uri
  rw [Cursor.uriFrom, hspan]
  dsimp only
  rw [if_neg (by rw [hpercent]; exact Bool.false_ne_true)]
  dsimp only [bind, Except.bind]
  rw [if_neg hmark]

/-- The reader of tags finds the name of a standard tag. -/
theorem tag_read {c : Cursor} (h : c.rest = '!' :: '!' :: w ++ t) (hw : ∀ y ∈ w, y.isAlpha = true) (hne : w ≠ [])
    (ht : isGap t = true) : c.tag = .ok (⟨some "!!", String.ofList w⟩, c.skip ('!' :: '!' :: w).length) := by
  have hnext : c.next.rest = '!' :: (w ++ t) := Cursor.rest_next_cons h
  have hsuffix : c.next.next.rest = w ++ t := Cursor.rest_next_cons hnext
  have hangle : c.next.at? '<' = false := by rw [Cursor.at?_eq, hnext]; rfl
  have hword : endsWord c.next.peek = false := by rw [Cursor.peek_eq, hnext]; rfl
  have hhandle : c.hasHandle = true := by
    rw [Cursor.hasHandle, hnext, List.takeWhile_cons, if_pos (by rfl), List.contains_cons]
    rfl
  have hends : endsField (c.next.next.skip w.length).peek = true := by
    obtain ⟨d, t', rfl, hd⟩ := exists_of_isGap ht
    rw [Cursor.peek_eq, Cursor.rest_skip_append hsuffix]
    rcases hd with rfl | rfl <;> rfl
  unfold Cursor.tag
  dsimp only
  rw [if_neg (by rw [hangle]; exact Bool.false_ne_true), if_neg (by rw [hword]; exact Bool.false_ne_true),
    if_pos hhandle, handle_standard .tag c.mark h]
  dsimp only [bind, Except.bind]
  rw [uri_alpha .tag c.mark hsuffix hw hne ht]
  dsimp only
  rw [if_pos hends]
  rfl

/-- A standard tag in front of a content. -/
theorem Inside.tag (h : Inside s (' ' :: ('!' :: '!' :: w ++ t)) n kinds cs) (hw : ∀ y ∈ w, y.isAlpha = true)
    (hne : w ≠ []) (ht : isGap t = true) :
    ∃ s', Continues s s' ∧ Inside s' t n (.tag ⟨some "!!", String.ofList w⟩ :: kinds) cs := by
  obtain ⟨s', hs', -, -, -, hin⟩ := h.word (w := '!' :: w) (.tag ⟨some "!!", String.ofList w⟩)
    (fun c => c.tag.map fun p => (.tag p.1, p.2))
    (startsToken_cons (by decide) (by decide))
    (fun {c} hc => by
      rw [tag_read hc hw hne ht]
      rfl)
    (fun {u} hu ho => by
      simp [token, noMark_of_ne hu (by decide), Scan.tag])
  refine ⟨s', hs', hin fun y hy => ?_⟩
  obtain rfl | hy := List.mem_cons.1 hy
  · decide
  obtain rfl | hy := List.mem_cons.1 hy
  · decide
  · exact isFlat_of_isAlpha (hw y hy)

/-- From behind a token whose reading has taken the end of its line. -/
theorem leads_landed {x : Char} {v : Scan} (hs : s.settle = .ok u)
    (hat : At u (x :: w ++ '\n' :: (spaces k ++ r)) column kinds (ds ++ cs))
    (hreaches : Reaches s u) (hv : u.token x = .ok v) {kind : TokenKind}
    (hkinds : v.tokens.map Token.kind = kind :: kinds) (hcount : v.count = v.tokens.length)
    (houter : v.outer = []) (hcolumns : v.indent :: v.indents = ds ++ cs) (hallowed : v.keyAllowed = true)
    (hcursor : v.cursor = u.cursor.skip ((x :: w).length + (k + 1)))
    (hkey : ∀ k, v.simpleKey = some k → k.required = false ∧ k.mark.line ≤ u.cursor.mark.line)
    (hr : StartsToken r) (hds : ∀ d ∈ ds, (k : Int) < d) (hcs : isWithin k cs) :
    ∃ v, Leads s v ∧ AtLine v r k (List.replicate ds.length .blockEnd ++ kind :: kinds) cs := by
  obtain ⟨hrest, hcol, hline⟩ := Cursor.skip_line hat.rest
  have hatv : At v r k (kind :: kinds) (ds ++ cs) :=
    ⟨by rw [hcursor, hrest], by rw [hcursor, hcol], hkinds, hcount, houter, hcolumns⟩
  obtain ⟨t, ht, hatt, hcursort⟩ := dropStale_landed hatv hallowed fun k hk =>
    ⟨(hkey k hk).1, by rw [hcursor]; exact Nat.lt_of_le_of_lt (hkey k hk).2 hline⟩
  obtain ⟨z, hz, hatz, hcursorz⟩ := settle_landed hatt hr hds hcs
  refine ⟨z, .more hs hreaches ⟨x, v, by rw [Cursor.peek_eq, hat.rest]; rfl, hv, ht, ?_, _, hcursort.trans hcursor⟩
    (.here hz ⟨0, hcursorz⟩), hatz⟩
  rw [hatt.rest, hat.rest]
  simp
  omega

theorem take_three_append {x y : Char} {w t : List Char} (hxy : y ≠ x) (h : (w ++ y :: t).take 3 = [x, x, x]) :
    w.take 3 = [x, x, x] := by
  match w with
  | [] => simp_all
  | [a] => simp_all
  | [a, b] => simp_all
  | a :: b :: c :: w => simpa using h

/-- Of the signs that begin tokens a plain text has none at its front. -/
theorem token_plain {x : Char} (hrest : u.cursor.rest = x :: w ++ t) (hw : Form.allowsPlain (x :: w) = true)
    (ht : ∃ y t', t = y :: t' ∧ (y = ':' ∨ y = '\n')) (ho : u.outer = []) : u.token x = u.plain := by
  have hplain := isPlain_of_allowsPlain hw
  simp only [Form.allowsPlain, Bool.and_eq_true, Bool.not_eq_true', Form.startsWithSign, Bool.or_eq_false_iff,
    decide_eq_false_iff_not] at hw
  obtain ⟨⟨⟨⟨-, hblank⟩, -⟩, ⟨⟨hsign, hthree⟩, hdashes⟩, hdots⟩, -⟩ := hw
  obtain ⟨y, t', rfl, hy⟩ := ht
  have hmark : u.atMark '-' = false ∧ u.atMark '.' = false := by
    have hno : ∀ z : Char, z ≠ ':' → z ≠ '\n' → (x :: w).take 3 ≠ [z, z, z] → u.atMark z = false := by
      intro z hz hz' hne
      have hyz : y ≠ z := by rcases hy with rfl | rfl <;> [exact hz.symm; exact hz'.symm]
      have : ¬ (u.cursor.rest.take 3 = [z, z, z]) := by
        rw [hrest]
        exact fun he => hne (take_three_append hyz he)
      simp [atMark, this]
    exact ⟨hno '-' (by decide) (by decide) hdashes, hno '.' (by decide) (by decide) hdots⟩
  have hword : endsWord (some x) = false := by
    rw [hplain.words x (by simp)]
    simpa [Form.isBlank] using hblank
  -- Behind a dash, a question mark or a colon the text goes on with another character of a word.
  have hnext : x = '-' ∨ x = '?' ∨ x = ':' → endsWord u.cursor.rest[1]? = false := by
    intro hx
    have hspace : Form.spaceFollows w = false := by
      rw [Bool.and_eq_false_iff] at hthree
      refine hthree.resolve_left ?_
      rcases hx with rfl | rfl | rfl <;> decide
    cases w with
    | nil => simp [Form.spaceFollows] at hspace
    | cons d w =>
      by_contra hd
      simp only [hrest, List.cons_append, List.getElem?_cons_succ, List.getElem?_cons_zero, Bool.not_eq_false] at hd
      rw [Form.spaceFollows, isSpace_of_endsWord hd] at hspace
      exact absurd hspace (by decide)
  simp at hsign
  have hstarts : u.plainStarts x = true := by
    by_cases hx : x = '-' ∨ x = '?' ∨ x = ':'
    · have := hnext hx
      rcases hx with rfl | rfl | rfl <;> simp [plainStarts, this, inFlow, ho]
    · simp only [not_or] at hx
      simp [plainStarts, hword, hsign, hx]
  have hdash : (decide (x = '-') && endsWord u.cursor.rest[1]?) = false := by
    by_cases hx : x = '-' <;> simp [hx, hnext]
  have hquestion : (decide (x = '?') && (u.inFlow || endsWord u.cursor.rest[1]?)) = false := by
    by_cases hx : x = '?' <;> simp [hx, hnext, inFlow, ho]
  have hcolon : (decide (x = ':') && (u.inFlow || endsWord u.cursor.rest[1]?)) = false := by
    by_cases hx : x = ':' <;> simp [hx, hnext, inFlow, ho]
  rw [token]
  simp only [Cursor.peekAt_eq, hmark, hsign, hdash, hquestion, hcolon, hstarts, decide_false, Bool.false_and,
    Bool.false_eq_true, if_false, if_true]

theorem plain_of_saveKey {key : Option SimpleKey} {p : Cursor.PlainScan} (ho : u.outer = [])
    (hsave : u.saveKey = .ok { u with simpleKey := key }) (hread : u.cursor.plain false (u.indent + 1) = p) :
    u.plain = .ok { ({ u with simpleKey := key } : Scan).push (.scalar (String.ofList p.text) .plain) u.cursor.mark
      p.stop with cursor := p.cursor, keyAllowed := p.brokeLine } := by
  have hflow : inFlow { u with simpleKey := key } = false := by simp [inFlow, ho]
  rw [Scan.plain, hsave]
  dsimp only [bind, Except.bind]
  rw [hflow, hread]

theorem Inside.plain {x : Char}
    (h : Inside s (' ' :: (x :: w ++ '\n' :: (spaces k ++ r))) n kinds (ds ++ cs))
    (hw : Form.allowsPlain (x :: w) = true) (hk : k ≤ n) (hr : Follows k r)
    (hds : ∀ d ∈ ds, (k : Int) < d) (hcs : isWithin k cs) :
    ∃ v, Leads s v ∧ AtLine v r k
      (List.replicate ds.length .blockEnd ++ .scalar (String.ofList (x :: w)) .plain :: kinds) cs := by
  have hplain := isPlain_of_allowsPlain hw
  have hstart : StartsToken (x :: w ++ '\n' :: (spaces k ++ r)) := by
    refine startsToken_cons (hplain.flat x (by simp)) ?_
    simp only [Form.allowsPlain, Bool.and_eq_true, Bool.not_eq_true', Form.startsWithSign, Bool.or_eq_false_iff] at hw
    obtain ⟨⟨⟨⟨-, hblank⟩, -⟩, ⟨⟨hsign, -⟩, -⟩, -⟩, -⟩ := hw
    exact ⟨by simpa [Form.isBlank] using hblank, fun he => by rw [he] at hsign; exact absurd hsign (by decide)⟩
  obtain ⟨u, hu, hat, hidle, hcursor, hindent, -, -⟩ := h.settle hstart
  have hdeep := h.deeper
  obtain ⟨key, hsave, hkey⟩ := saveKey_idle hat hidle (by rw [hindent]; omega)
  have hread := Cursor.plain_line (u.indent + 1) (k := k) (r := r) hat.rest hw (by simp)
    (by rw [hat.column, hindent]; omega) (by rw [hindent]; omega) hr
  have htoken := token_plain hat.rest hw ⟨_, _, rfl, .inr rfl⟩ hat.outer
  have hv : u.plain = .ok { ({ u with simpleKey := key }).push (.scalar (String.ofList (x :: w)) .plain) u.cursor.mark
      (u.cursor.skip (x :: w).length).mark with
      cursor := u.cursor.skip ((x :: w).length + (k + 1)), keyAllowed := true } :=
    plain_of_saveKey hat.outer hsave hread
  refine leads_landed hu hat ⟨1, hcursor⟩
    (htoken.trans hv) ?_ ?_ hat.outer hat.columns rfl rfl hkey hr.toStartsToken hds hcs
  · simp [Scan.push, hat.kinds]
  · simp [Scan.push, hat.count]

/-- Between two brackets. The candidate in front of them is kept or given up there. -/
structure Between (s : Scan) (rest : List Char) (kinds : List TokenKind) (columns : List Int) : Prop where
  rest : s.cursor.rest = rest
  kinds : s.tokens.map Token.kind = kinds
  count : s.count = s.tokens.length
  columns : s.indent :: s.indents = columns
  noKey : s.simpleKey = none
  outer : ∃ o, s.outer = [o] ∧ ∀ key, o = some key → key.required = false ∧ key.mark.line ≤ s.cursor.mark.line

/-- Behind an opening bracket inside a content. -/
theorem flowStart_between {x : Char} (h : At u (x :: t) column kinds cs) (hidle : u.IsIdle) (hn : u.indent < column)
    (opening : TokenKind) :
    ∃ s, u.flowStart opening = .ok s ∧ Between s t (opening :: kinds) cs ∧ s.cursor = u.cursor.skip 1 := by
  obtain ⟨key, hsave, hkey⟩ := saveKey_idle h hidle hn
  refine ⟨pushSign opening 1 { u with simpleKey := none, outer := [key], keyAllowed := true }, ?_,
    ⟨?_, ?_, ?_, h.columns, rfl, key, rfl, fun k hk => ?_⟩, rfl⟩
  · rw [flowStart, hsave]
    dsimp only [bind, Except.bind]
    rw [h.outer]
  · simp [pushSign, h.rest]
  · simp [pushSign, Scan.push, h.kinds]
  · simp [pushSign, Scan.push, h.count]
  · exact ⟨(hkey k hk).1, (hkey k hk).2.trans (Cursor.line_le_skip _ _)⟩

theorem Between.dropStale (h : Between s rest kinds columns) :
    ∃ v, s.dropStale = .ok v ∧ Between v rest kinds columns ∧ v.cursor = s.cursor := by
  obtain ⟨o, houter, hkey⟩ := h.outer
  refine ⟨_, dropStale_optional fun key hmem => ?_,
    ⟨h.rest, h.kinds, h.count, h.columns, by rw [h.noKey]; rfl, o.bind fun k => if s.isStale k then none else some k,
      by rw [houter]; rfl, fun key hk => ?_⟩, rfl⟩
  · rw [h.noKey, houter, List.mem_cons, List.mem_singleton] at hmem
    exact (hkey key (hmem.resolve_left (by simp)).symm).1
  · obtain ⟨key', hk', hsome⟩ := Option.bind_eq_some_iff.1 hk
    split at hsome
    · exact absurd hsome (by simp)
    · obtain rfl := Option.some.inj hsome
      exact hkey key' hk'

/-- Brackets suspend indentation, so nothing is closed in front of a token between them. -/
theorem Between.settle (h : Between s rest kinds columns) (hr : StartsToken rest) :
    ∃ v, s.settle = .ok v ∧ Between v rest kinds columns ∧ v.cursor = s.cursor := by
  obtain ⟨v, hv, hat, hcursor⟩ := h.dropStale
  obtain ⟨o, houter, -⟩ := hat.outer
  have hto : s.toToken = s := toToken_blanks (j := 0) h.rest hr
  refine ⟨v, ?_, hat, hcursor⟩
  rw [Scan.settle, hto, hv]
  dsimp only [bind, Except.bind, pure, Except.pure]
  rw [closeTo, if_pos (by rw [inFlow, houter]; rfl)]

/-- What has been saved before the opening bracket comes back behind the closing one. -/
theorem Between.flowEnd {y : Char} (h : Between s (y :: t) kinds columns) (closing : TokenKind) :
    ∃ v, s.flowEnd closing = .ok v ∧ At v t v.cursor.column (closing :: kinds) columns ∧ v.IsIdle ∧
      v.cursor = s.cursor.skip 1 := by
  obtain ⟨o, houter, hkey⟩ := h.outer
  have hat : At { s with simpleKey := o, outer := [], keyAllowed := false } (y :: t) s.cursor.column kinds columns :=
    ⟨h.rest, rfl, h.kinds, h.count, rfl, h.columns⟩
  refine ⟨_, ?_, hat.pushSign 1 rfl closing, fun k hk => ?_, rfl⟩
  · rw [Scan.flowEnd, dropKey_none h.noKey]
    dsimp only [bind, Except.bind]
    rw [houter]
    rfl
  · exact ⟨(hkey k hk).1, (hkey k hk).2.trans (Cursor.line_le_skip _ _)⟩

/-- Empty brackets at the end of their line. -/
theorem Inside.brackets {x y : Char} (opening closing : TokenKind)
    (h : Inside s (' ' :: x :: y :: '\n' :: (spaces k ++ r)) n kinds (ds ++ cs))
    (hx : isFlat x = true ∧ x ≠ ' ' ∧ x ≠ '#')
    (hy : isFlat y = true ∧ y ≠ ' ' ∧ y ≠ '#')
    (hopen : ∀ {u : Scan} {t : List Char}, u.cursor.rest = x :: t → u.token x = u.flowStart opening)
    (hclose : ∀ {u : Scan} {t : List Char}, u.cursor.rest = y :: t → u.token y = u.flowEnd closing)
    (hr : StartsToken r) (hds : ∀ d ∈ ds, (k : Int) < d) (hcs : isWithin k cs) :
    ∃ v, Leads s v ∧ AtLine v r k (List.replicate ds.length .blockEnd ++ closing :: opening :: kinds) cs := by
  obtain ⟨u, hu, hat, hidle, hcursor, hindent, -, -⟩ := h.settle (startsToken_cons hx.1 hx.2)
  have hdeep := h.deeper
  -- The turn over the opening bracket.
  obtain ⟨p, hp, hbetween, hcursorp⟩ := flowStart_between hat hidle (by rw [hindent]; omega) opening
  obtain ⟨p', hp', hbetween', hcursorp'⟩ := hbetween.dropStale
  have hturn : Turn u p' := ⟨x, p, by rw [Cursor.peek_eq, hat.rest]; rfl, (hopen hat.rest).trans hp, hp', by
    rw [hbetween'.rest, hat.rest]
    simp, 1, hcursorp'.trans hcursorp⟩
  -- The turn over the closing one.
  obtain ⟨w, hw, hbetweenw, hcursorw⟩ := hbetween'.settle (startsToken_cons hy.1 hy.2)
  obtain ⟨q, hq, hatq, hidleq, hcursorq⟩ := hbetweenw.flowEnd closing
  obtain ⟨z, hz, hatz, hidlez, -, -, hcursorz, -⟩ := dropStale_at hatq hidleq
  have hturn' : Turn w z := ⟨y, q, by rw [Cursor.peek_eq, hbetweenw.rest]; rfl, (hclose hbetweenw.rest).trans hq, hz, by
    rw [hatz.rest, hbetweenw.rest]
    simp, 1, hcursorz.trans hcursorq⟩
  obtain ⟨v, hv, hatv⟩ := leads_line _ hatz hidlez hr hds hcs
  exact ⟨v, .more hu ⟨1, hcursor⟩ hturn (.more hw ⟨0, hcursorw⟩ hturn' hv), hatv⟩

theorem Inside.literal {i : Nat} {lines : List (List Char)}
    (h : Inside s (' ' :: ('|' :: indented i lines ++ '\n' :: (spaces k ++ r))) n kinds (ds ++ cs))
    (hlines : ∀ line ∈ lines, IsBlockLine line) (hne : lines ≠ []) (hi : n < i) (hk : k ≤ n) (hr : Follows k r)
    (hds : ∀ d ∈ ds, (k : Int) < d) (hcs : isWithin k cs) :
    ∃ v, Leads s v ∧ AtLine v r k
      (List.replicate ds.length .blockEnd ++ .scalar (String.ofList (ended lines)) .literal :: kinds) cs := by
  obtain ⟨u, hu, hat, hidle, hcursor, hindent, -, -⟩ := h.settle (startsToken_cons (by decide) (by decide))
  obtain ⟨stop, hread⟩ := Cursor.block_ended u.indent (n := i) (k := k) hat.rest hlines hne (by omega)
    (by rw [hindent]; omega) (by omega) hr
  have hdrop : u.dropKey = .ok { u with simpleKey := none } := by
    cases hkey : u.simpleKey with
    | none => rw [dropKey_none hkey, ← hkey]
    | some key =>
      rw [dropKey, hkey]
      dsimp only
      rw [if_neg (by simp [(hidle key hkey).1])]
  have htoken : u.token '|' = u.block false := by
    simp [token, noMark_of_ne hat.rest (by decide),
      inFlow_eq hat]
  have hv : u.block false = .ok { ({ u with simpleKey := none }).push (.scalar (String.ofList (ended lines)) .literal)
      u.cursor.mark stop with
      cursor := u.cursor.skip (('|' :: indented i lines).length + (k + 1)), keyAllowed := true } := by
    rw [Scan.block, hdrop]
    dsimp only [bind, Except.bind]
    rw [hread]
    rfl
  refine leads_landed hu hat ⟨1, hcursor⟩ (htoken.trans hv) ?_ ?_ hat.outer hat.columns rfl rfl (fun k hk => ?_)
    hr.toStartsToken hds hcs
  · simp [Scan.push, hat.kinds]
  · simp [Scan.push, hat.count]
  · exact absurd hk (by simp [Scan.push])

end NoteVault.Yaml.Scan
