import NoteVault.Proofs.Yaml.Scalar.Plain
import NoteVault.Yaml.Token.Scan

/-!
The scanner between two tokens. It passes over blanks and line ends, gives up keys and closes what is
indented further; a run of the scanner alternates between this and reading a token.
-/
namespace NoteVault.Yaml.Scan

open Form (spaces)

/-- What is done in front of a token. -/
def settle (s : Scan) : Except Error Scan := do
  let s ← s.toToken.dropStale
  return s.closeTo s.cursor.column

theorem step_eq (s : Scan) : s.step = (do
    let s ← s.settle
    match s.cursor.peek with
    | none => return (← s.streamEnd, false)
    | some x =>
      let s ← s.token x
      return (← s.dropStale, true)) := by
  unfold step settle
  cases s.toToken.dropStale <;> rfl

/-- The scanner outside of brackets: what is left to read, the column, the tokens so far with the latest one
first, and the columns of the open collections with the innermost one first. -/
structure At (s : Scan) (rest : List Char) (column : Nat) (kinds : List TokenKind) (columns : List Int) : Prop where
  rest : s.cursor.rest = rest
  column : s.cursor.column = column
  kinds : s.tokens.map Token.kind = kinds
  count : s.count = s.tokens.length
  outer : s.outer = []
  columns : s.indent :: s.indents = columns

/-- What may still become a key need not become one, and stands on this line or before it. -/
def IsIdle (s : Scan) : Prop :=
  ∀ k, s.simpleKey = some k → k.required = false ∧ k.mark.line ≤ s.cursor.mark.line

theorem isIdle_of_none {s : Scan} (h : s.simpleKey = none) : s.IsIdle := fun k hk => by
  rw [h] at hk
  exact absurd hk (by simp)

/-- At the beginning of a line, in front of its first token. -/
structure AtLine (s : Scan) (rest : List Char) (column : Nat) (kinds : List TokenKind) (columns : List Int) : Prop
    extends At s rest column kinds columns where
  noKey : s.simpleKey = none
  allowed : s.keyAllowed = true

variable {s : Scan} {rest r : List Char} {column j k : Nat} {kinds : List TokenKind} {columns cs : List Int}

theorem dropStale_optional (h : ∀ key, some key ∈ s.simpleKey :: s.outer → key.required = false) :
    s.dropStale = .ok { s with
      simpleKey := s.simpleKey.bind fun k => if s.isStale k then none else some k
      outer := s.outer.map fun o => o.bind fun k => if s.isStale k then none else some k } := by
  have hfind : (s.simpleKey :: s.outer).find? (fun k => k.any fun k => k.required && s.isStale k) = none := by
    refine List.find?_eq_none.2 fun o ho => ?_
    cases o with
    | none => simp
    | some key => simp [h key ho]
  unfold dropStale
  dsimp only
  rw [hfind]

theorem dropStale_idle (ho : s.outer = []) (h : s.IsIdle) :
    s.dropStale = .ok { s with simpleKey := s.simpleKey.bind fun k => if s.isStale k then none else some k } := by
  rw [dropStale_optional fun key hkey => ?_, ho]
  · simp
  · rw [ho, List.mem_singleton] at hkey
    exact (h key hkey.symm).1

/-- Giving up old candidates keeps everything else. -/
theorem dropStale_at (h : At s rest column kinds columns) (hidle : s.IsIdle) :
    ∃ v, s.dropStale = .ok v ∧ At v rest column kinds columns ∧ v.IsIdle ∧ v.keyAllowed = s.keyAllowed ∧
      (s.simpleKey = none → v.simpleKey = none) ∧ v.cursor = s.cursor ∧ v.indent = s.indent := by
  refine ⟨_, dropStale_idle h.outer hidle, ⟨h.rest, h.column, h.kinds, h.count, h.outer, h.columns⟩,
    fun k hk => ?_, rfl, fun hnone => by simp [hnone], rfl, rfl⟩
  obtain ⟨k', hk', hsome⟩ := Option.bind_eq_some_iff.1 hk
  split at hsome
  · exact absurd hsome (by simp)
  · obtain rfl := Option.some.inj hsome
    exact hidle k' hk'

/-- Candidates on earlier lines are given up. -/
theorem dropStale_landed (h : At s rest column kinds columns) (hallowed : s.keyAllowed = true)
    (hkey : ∀ k, s.simpleKey = some k → k.required = false ∧ k.mark.line < s.cursor.mark.line) :
    ∃ v, s.dropStale = .ok v ∧ AtLine v rest column kinds columns ∧ v.cursor = s.cursor := by
  have hidle : s.IsIdle := fun k hk => ⟨(hkey k hk).1, (hkey k hk).2.le⟩
  refine ⟨_, dropStale_idle h.outer hidle, ⟨⟨h.rest, h.column, h.kinds, h.count, h.outer, h.columns⟩, ?_, hallowed⟩,
    rfl⟩
  refine Option.bind_eq_none_iff.2 fun k hk => if_pos ?_
  simp [isStale, (hkey k hk).2.ne]

/-- A candidate that is still good is kept. -/
theorem dropStale_fresh (ho : s.outer = []) (h : ∀ k, s.simpleKey = some k → s.isStale k = false) :
    s.dropStale = .ok s := by
  have hfind : (s.simpleKey :: s.outer).find? (fun k => k.any fun k => k.required && s.isStale k) = none := by
    rw [ho, List.find?_cons, List.find?_nil]
    cases hk : s.simpleKey with
    | none => rfl
    | some key => simp [h key hk]
  have hbind : (s.simpleKey.bind fun k => if s.isStale k then none else some k) = s.simpleKey := by
    cases hk : s.simpleKey with
    | none => rfl
    | some key => simp [h key hk]
  unfold dropStale
  dsimp only
  rw [hfind]
  dsimp only
  rw [hbind, ho, List.map_nil, ← ho]

theorem At.push (h : At s rest column kinds columns) (kind : TokenKind) (start stop : Mark) :
    At (s.push kind start stop) rest column (kind :: kinds) columns :=
  ⟨h.rest, h.column, by simp [Scan.push, h.kinds], by simp [Scan.push, h.count], h.outer, h.columns⟩

/-- The innermost open collection is not indented further than a column. -/
def isWithin (column : Int) (columns : List Int) : Prop := ∃ d rest, columns = d :: rest ∧ d ≤ column

theorem close_columns {column : Int} {ds : List Int} (fuel : Nat) (h : At s rest k kinds (ds ++ cs))
    (hf : ds.length ≤ fuel) (hds : ∀ d ∈ ds, column < d) (hcs : isWithin column cs) :
    At (closeTo.close column fuel s) rest k (List.replicate ds.length .blockEnd ++ kinds) cs ∧
      (closeTo.close column fuel s).simpleKey = s.simpleKey ∧
      (closeTo.close column fuel s).keyAllowed = s.keyAllowed ∧ (closeTo.close column fuel s).cursor = s.cursor := by
  obtain ⟨e, es, rfl, he⟩ := hcs
  induction ds generalizing fuel s kinds with
  | nil =>
    have hstop : closeTo.close column fuel s = s := by
      have hind : s.indent = e := (List.cons.inj h.columns).1
      cases fuel with
      | zero => rfl
      | succ fuel => rw [closeTo.close, if_neg (by omega)]
    rw [hstop]
    exact ⟨h, rfl, rfl, rfl⟩
  | cons d ds ih =>
    obtain ⟨fuel, rfl⟩ : ∃ m, fuel = m + 1 := ⟨fuel - 1, by simp at hf; omega⟩
    obtain ⟨hd, hrest⟩ := List.cons.inj h.columns
    have hgo : column < s.indent := by rw [hd]; exact hds d (by simp)
    rw [closeTo.close, if_pos hgo]
    have hcolumns : s.indents.headD (-1) :: s.indents.tail = ds ++ e :: es := by
      rw [hrest]
      cases ds <;> rfl
    have hpop : At { s with indent := s.indents.headD (-1), indents := s.indents.tail } rest k kinds (ds ++ e :: es) :=
      ⟨h.rest, h.column, h.kinds, h.count, h.outer, hcolumns⟩
    have hnext := hpop.push .blockEnd s.cursor.mark s.cursor.mark
    obtain ⟨hat, hkey, hallowed, hcursor⟩ := ih fuel (by simpa using hf) (fun d hd => hds d (by simp [hd])) hnext
    refine ⟨?_, hkey, hallowed, hcursor⟩
    rw [List.length_cons, List.replicate_succ', List.append_assoc]
    exact hat

theorem closeTo_columns (column : Int) (ds : List Int) (h : At s rest k kinds (ds ++ cs))
    (hds : ∀ d ∈ ds, column < d) (hcs : isWithin column cs) :
    At (s.closeTo column) rest k (List.replicate ds.length .blockEnd ++ kinds) cs ∧
      (s.closeTo column).simpleKey = s.simpleKey ∧ (s.closeTo column).keyAllowed = s.keyAllowed ∧
      (s.closeTo column).cursor = s.cursor := by
  have hlen : ds.length ≤ s.indents.length := by
    obtain ⟨e, es, rfl, -⟩ := hcs
    have := congrArg List.length h.columns
    simp at this
    omega
  rw [closeTo, if_neg (by simp [inFlow, h.outer])]
  exact close_columns _ h hlen hds hcs

theorem closeTo_within {column : Int} (h : At s rest k kinds cs) (hcs : isWithin column cs) : s.closeTo column = s := by
  obtain ⟨d, es, rfl, hd⟩ := hcs
  have hind : s.indent = d := (List.cons.inj h.columns).1
  rw [closeTo, if_neg (by simp [inFlow, h.outer])]
  cases s.indents.length with
  | zero => rfl
  | succ fuel => rw [closeTo.close, if_neg (by omega)]

/-- Blanks in front of a token. -/
theorem toToken_blanks (h : s.cursor.rest = spaces j ++ r) (hr : StartsToken r) :
    s.toToken = { s with cursor := s.cursor.skip j } := by
  have hmark : s.cursor.at? '\ufeff' = false := by
    rw [Cursor.at?_eq, h]
    cases j with
    | zero => exact decide_eq_false hr.no_order_mark
    | succ j => simp [spaces, List.replicate_succ]
  have hskip : s.cursor.skipAll ' ' = s.cursor.skip j := by
    have := Cursor.span_eq (p := (· = ' ')) h (fun x hx => by simp [(List.mem_replicate.1 hx).2]) (by
      have := hr.no_blank
      cases r <;> simp_all)
    simp [Cursor.skipAll, this, spaces]
  have hrest : (s.cursor.skip j).rest = r := by simpa [spaces] using Cursor.rest_skip_append h
  have hhash : (s.cursor.skip j).at? '#' = false := by
    rw [Cursor.at?_eq, hrest]
    exact decide_eq_false hr.no_comment
  have hbreak : (s.cursor.skip j).peek.any isBreak = false := by rw [Cursor.peek_eq, hrest, hr.no_break]
  unfold toToken
  rw [if_neg (by rw [hmark, Bool.and_false]; exact Bool.false_ne_true)]
  simp only [toToken.loop, hskip, hhash, hbreak, Bool.false_eq_true, if_false]

/-- The end of a line, and blanks in front of the first token of the next one. -/
theorem toToken_line (h : s.cursor.rest = '\n' :: (spaces k ++ r)) (hr : StartsToken r) (ho : s.outer = []) :
    s.toToken = { s with cursor := s.cursor.skip (k + 1), keyAllowed := true } := by
  have hmark : s.cursor.at? '\ufeff' = false := by simp [h]
  have hskip : s.cursor.skipAll ' ' = s.cursor := by
    have := Cursor.span_eq (c := s.cursor) (p := (· = ' ')) (s := []) h (by simp) (by simp)
    simp [Cursor.skipAll, this]
  have hnext := Cursor.rest_next_cons h
  have hrest : (s.cursor.next.skip k).rest = r := by simpa [spaces] using Cursor.rest_skip_append hnext
  have hblanks : s.cursor.next.skipAll ' ' = s.cursor.next.skip k := by
    have := Cursor.span_eq (p := (· = ' ')) hnext (fun x hx => by simp [(List.mem_replicate.1 hx).2]) (by
      have := hr.no_blank
      cases r <;> simp_all)
    simp [Cursor.skipAll, this, spaces]
  have hhash : s.cursor.at? '#' = false ∧ (s.cursor.next.skip k).at? '#' = false := by
    rw [Cursor.at?_eq, Cursor.at?_eq, hrest, h]
    exact ⟨rfl, decide_eq_false hr.no_comment⟩
  have hbreak : s.cursor.peek.any isBreak = true ∧ (s.cursor.next.skip k).peek.any isBreak = false := by
    rw [Cursor.peek_eq, Cursor.peek_eq, hrest, h]
    exact ⟨rfl, hr.no_break⟩
  obtain ⟨m, hm⟩ : ∃ m, s.cursor.rest.length = m + 1 := ⟨_, by rw [h]; rfl⟩
  unfold toToken
  rw [if_neg (by rw [hmark, Bool.and_false]; exact Bool.false_ne_true)]
  dsimp only
  rw [hm]
  simp only [toToken.loop, hskip, hhash, hbreak, Cursor.lineBreak_feed h, hblanks, Bool.false_eq_true, if_false,
    if_true, inFlow, ho, Cursor.skip, List.isEmpty_nil, Bool.not_true, Bool.not_false, Bool.or_true]

/-- A token on the same line. -/
theorem settle_blanks (h : At s (spaces j ++ r) column kinds cs) (hr : StartsToken r) (hidle : s.IsIdle)
    (hcs : isWithin (column + j) cs) :
    ∃ v, s.settle = .ok v ∧ At v r (column + j) kinds cs ∧ v.IsIdle ∧ v.keyAllowed = s.keyAllowed ∧
      (s.simpleKey = none → v.simpleKey = none) ∧ v.cursor = s.cursor.skip j := by
  have hrest : (s.cursor.skip j).rest = r := by simpa [spaces] using Cursor.rest_skip_append h.rest
  have hflat : ∀ x ∈ spaces j, isFlat x = true := fun x hx => by rw [(List.mem_replicate.1 hx).2]; decide
  have hmark := Cursor.mark_skip_flat h.rest hflat
  rw [spaces, List.length_replicate] at hmark
  have hcol : (s.cursor.skip j).column = column + j := by
    rw [Cursor.column, hmark, ← h.column]
    rfl
  have hidle' : IsIdle { s with cursor := s.cursor.skip j } := fun k hk =>
    ⟨(hidle k hk).1, (hidle k hk).2.trans (Cursor.line_le_skip _ _)⟩
  have hat : At { s with cursor := s.cursor.skip j } r (column + j) kinds ([] ++ cs) :=
    ⟨hrest, hcol, h.kinds, h.count, h.outer, h.columns⟩
  obtain ⟨u, hu, hatu, hidleu, hallowedu, hkeyu, hcursoru, -⟩ := dropStale_at hat hidle'
  obtain ⟨hclosed, hk, ha, hc⟩ := closeTo_columns u.cursor.column _ hatu (by simp)
    (by rw [hatu.column]; push_cast; exact hcs)
  refine ⟨u.closeTo u.cursor.column, ?_, hclosed, fun k hk' => ?_, ha.trans hallowedu,
    fun hnone => hk.trans (hkeyu hnone), hc.trans hcursoru⟩
  · rw [settle, toToken_blanks h.rest hr, hu]
    rfl
  · rw [hc]
    exact hidleu k (hk ▸ hk')

/-- The first token of the next line. What has been a key candidate is given up, and what is indented
further is closed. -/
theorem settle_line {ds : List Int} (h : At s ('\n' :: (spaces k ++ r)) column kinds (ds ++ cs))
    (hr : StartsToken r) (hidle : s.IsIdle) (hds : ∀ d ∈ ds, (k : Int) < d) (hcs : isWithin k cs) :
    ∃ v, s.settle = .ok v ∧ AtLine v r k (List.replicate ds.length .blockEnd ++ kinds) cs ∧
      v.cursor = s.cursor.skip (k + 1) := by
  have hnext := Cursor.rest_next_cons h.rest
  have hrest : (s.cursor.skip (k + 1)).rest = r := by simpa [spaces] using Cursor.rest_skip_append hnext
  have hflat : ∀ x ∈ spaces k, isFlat x = true := fun x hx => by rw [(List.mem_replicate.1 hx).2]; decide
  have hmark := Cursor.mark_skip_flat hnext hflat
  rw [spaces, List.length_replicate, Cursor.mark_next_break h.rest, Nat.zero_add] at hmark
  have hcol : (s.cursor.skip (k + 1)).column = k := by
    rw [Cursor.skip, Cursor.column, hmark]
  have hline : (s.cursor.skip (k + 1)).mark.line = s.cursor.mark.line + 1 := by
    rw [Cursor.skip, hmark]
  have hidle' : IsIdle { s with cursor := s.cursor.skip (k + 1), keyAllowed := true } := fun k hk =>
    ⟨(hidle k hk).1, (hidle k hk).2.trans (Cursor.line_le_skip _ _)⟩
  have hdrop := dropStale_idle (s := { s with cursor := s.cursor.skip (k + 1), keyAllowed := true }) h.outer hidle'
  have hkey : (s.simpleKey.bind fun key =>
      if isStale { s with cursor := s.cursor.skip (k + 1), keyAllowed := true } key then none
      else some key) = none := by
    refine Option.bind_eq_none_iff.2 fun key hs => if_pos ?_
    have hle := (hidle key hs).2
    have hne : key.mark.line ≠ s.cursor.mark.line + 1 := by omega
    simp [isStale, hline, hne]
  have hat : At { s with cursor := s.cursor.skip (k + 1), keyAllowed := true, simpleKey := none } r k kinds
      (ds ++ cs) := ⟨hrest, hcol, h.kinds, h.count, h.outer, h.columns⟩
  obtain ⟨hclosed, hk, ha, hc⟩ := closeTo_columns (s.cursor.skip (k + 1)).column _ hat
    (by rw [hcol]; exact hds) (by rw [hcol]; exact hcs)
  refine ⟨_, ?_, ⟨hclosed, hk, ha⟩, hc⟩
  rw [settle, toToken_line h.rest hr h.outer, hdrop]
  dsimp only [bind, Except.bind, pure, Except.pure]
  rw [hkey]

/-- A token that the cursor has reached already. -/
theorem settle_landed {ds : List Int} (h : AtLine s r k kinds (ds ++ cs)) (hr : StartsToken r)
    (hds : ∀ d ∈ ds, (k : Int) < d) (hcs : isWithin k cs) :
    ∃ v, s.settle = .ok v ∧ AtLine v r k (List.replicate ds.length .blockEnd ++ kinds) cs ∧ v.cursor = s.cursor := by
  have hdrop := dropStale_idle h.outer (isIdle_of_none h.noKey)
  have hcol := h.column
  have hat : At { s with simpleKey := none } r k kinds (ds ++ cs) :=
    ⟨h.rest, h.column, h.kinds, h.count, h.outer, h.columns⟩
  obtain ⟨hclosed, hk, ha, hc⟩ := closeTo_columns s.cursor.column _ hat
    (by rw [hcol]; exact hds) (by rw [hcol]; exact hcs)
  refine ⟨_, ?_, ⟨hclosed, hk, ha.trans h.allowed⟩, hc⟩
  have hto : s.toToken = s := toToken_blanks (j := 0) h.rest hr
  rw [settle, hto, hdrop, h.noKey]
  rfl

end NoteVault.Yaml.Scan
