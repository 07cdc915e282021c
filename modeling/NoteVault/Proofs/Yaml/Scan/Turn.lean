import NoteVault.Proofs.Yaml.Scan.Settle

/-!
Runs of the scanner, and the tokens that are signs: dashes, question marks, colons and empty brackets.
-/
namespace NoteVault.Yaml.Scan

open Form (spaces)

/-- The cursor of the second state is the one of the first, some characters further on. -/
def Reaches (s v : Scan) : Prop := ∃ n, v.cursor = s.cursor.skip n

theorem Reaches.length_le {s v : Scan} (h : Reaches s v) : v.cursor.rest.length ≤ s.cursor.rest.length := by
  obtain ⟨n, hn⟩ := h
  rw [hn, Cursor.skip_rest, List.length_drop]
  exact Nat.sub_le _ _

/-- From in front of a token to behind it. -/
def Turn (u t : Scan) : Prop :=
  ∃ x s, u.cursor.peek = some x ∧ u.token x = .ok s ∧ s.dropStale = .ok t ∧
    t.cursor.rest.length < u.cursor.rest.length ∧ Reaches u t

/-- The scanner gets from one state to another one in front of a token. -/
inductive Leads : Scan → Scan → Prop
  | here {s v : Scan} (hv : s.settle = .ok v) (hreaches : Reaches s v) : Leads s v
  | more {s u t v : Scan} (hu : s.settle = .ok u) (hreaches : Reaches s u)
      (ht : Turn u t) (hv : Leads t v) : Leads s v

/-- From in front of one token to behind that one or a later one. -/
def Passes (u t : Scan) : Prop := ∀ {s v : Scan}, Leads s u → Leads t v → Leads s v

theorem Turn.passes {u t : Scan} (h : Turn u t) : Passes u t := by
  intro s v hs ht
  induction hs with
  | here hv hreaches => exact .more hv hreaches h ht
  | more hu hreaches hturn _ ih => exact .more hu hreaches hturn (ih h)

theorem Passes.trans {u t w x : Scan} (h : Passes u t) (hl : Leads t w) (h' : Passes w x) : Passes u x :=
  fun hs hx => h hs (h' hl hx)

/-- A run that leads to the end of the text yields its tokens. -/
theorem run_of_leads {s v w : Scan} (h : Leads s v) (hend : v.cursor.rest = []) (hw : v.streamEnd = .ok w)
    (fuel : Nat) (hf : s.cursor.rest.length < fuel) : s.run fuel = ⟨w.tokens.reverse, none⟩ := by
  induction h generalizing fuel with
  | here hv hreaches =>
    obtain ⟨fuel, rfl⟩ : ∃ m, fuel = m + 1 := ⟨fuel - 1, by omega⟩
    rw [run, step_eq, hv]
    dsimp only [bind, Except.bind]
    rw [Cursor.peek_eq, hend, List.head?_nil, hw]
    rfl
  | more hu hreaches hturn _ ih =>
    obtain ⟨fuel, rfl⟩ : ∃ m, fuel = m + 1 := ⟨fuel - 1, by omega⟩
    have hle := hreaches.length_le
    obtain ⟨x, t, hx, ht, hd, hlt, -⟩ := hturn
    rw [run, step_eq, hu]
    dsimp only [bind, Except.bind]
    rw [hx]
    dsimp only
    rw [ht]
    dsimp only
    rw [hd]
    exact ih hend hw fuel (by omega)

/-- Behind a sign or a property in a collection at a column, in front of what it stands for. -/
structure Inside (s : Scan) (rest : List Char) (n : Nat) (kinds : List TokenKind) (columns : List Int) : Prop
    extends At s rest s.cursor.column kinds columns where
  deeper : n < s.cursor.column
  indent : s.indent = n
  idle : s.IsIdle

/-- Behind a sign. What follows may be a collection on the same line if the flag says so. -/
structure Behind (s : Scan) (rest : List Char) (n : Nat) (sameLine : Bool) (kinds : List TokenKind)
    (columns : List Int) : Prop extends Inside s rest n kinds columns where
  noKey : s.simpleKey = none
  opens : sameLine = true → s.cursor.column = n + 1 ∧ s.keyAllowed = true

variable {u s : Scan} {rest t r : List Char} {m n k column : Nat} {kinds : List TokenKind} {columns cs ds : List Int}

/-- In front of another sign than a dash or a dot no document begins or ends. -/
theorem noMark_of_ne {x : Char} (h : u.cursor.rest = x :: t) (hx : x ≠ '-' ∧ x ≠ '.') :
    u.atMark '-' = false ∧ u.atMark '.' = false := by
  simp [atMark, h, hx]

/-- What begins with a blank or a line feed. -/
def isGap (t : List Char) : Bool := t.head?.any fun c => c = ' ' || c = '\n'

theorem exists_of_isGap (h : isGap t = true) : ∃ c t', t = c :: t' ∧ (c = ' ' ∨ c = '\n') := by
  cases t with
  | nil => simp [isGap] at h
  | cons c t => exact ⟨c, t, rfl, by simpa [isGap] using h⟩

theorem At.pushSign (h : At u rest column kinds columns) (length : Nat) (hrest : rest.drop length = t)
    (kind : TokenKind) :
    At (u.pushSign kind length) t (u.pushSign kind length).cursor.column (kind :: kinds) columns :=
  ⟨by rw [← hrest, ← h.rest]; simp [Scan.pushSign], rfl, by simp [Scan.pushSign, Scan.push, h.kinds],
    by simp [Scan.pushSign, Scan.push, h.count], h.outer, h.columns⟩

theorem column_pushSign {c : Char} (h : u.cursor.rest = c :: t) (hc : isFlat c = true) (kind : TokenKind) :
    (u.pushSign kind 1).cursor.column = u.cursor.column + 1 := by
  have := Cursor.mark_skip_flat (s := [c]) h (by simpa using hc)
  simp only [List.length_singleton] at this
  simp [Scan.pushSign, Cursor.column, this]

/-- Behind a sign at the column of its collection. -/
theorem behind_sign {v : Scan} {c : Char} (h : AtLine v (c :: t) m kinds cs) (hc : isFlat c = true)
    (hm : v.indent = m) (kind : TokenKind) :
    ∃ s, ({ v with keyAllowed := true }.pushSign kind 1).dropStale = .ok s ∧ Behind s t m true (kind :: kinds) cs ∧
      s.cursor.rest.length < (c :: t).length ∧ s.cursor = v.cursor.skip 1 := by
  have hat := At.pushSign (u := { v with keyAllowed := true }) (t := t)
    ⟨h.rest, h.column, h.kinds, h.count, h.outer, h.columns⟩ 1 rfl kind
  have hcol : ({ v with keyAllowed := true }.pushSign kind 1).cursor.column = m + 1 := by
    rw [column_pushSign (u := { v with keyAllowed := true }) h.rest hc]
    exact congrArg (· + 1) h.column
  obtain ⟨s, hs, hats, hidle, hallowed, hkey, hcursor, hindent⟩ := dropStale_at hat (isIdle_of_none h.noKey)
  have hcols : s.cursor.column = m + 1 := by rw [hcursor, hcol]
  refine ⟨s, hs, ⟨⟨?_, by omega, hindent.trans hm, hidle⟩, hkey h.noKey, fun _ => ⟨hcols, hallowed⟩⟩, ?_, hcursor⟩
  · rw [hcols, ← hcol]
    exact hats
  · rw [hats.rest]
    simp

/-- A collection opens at the cursor. -/
theorem AtLine.openHere (h : AtLine u rest m kinds cs) (hm : u.indent < m) (kind : TokenKind) :
    AtLine (u.openHere kind) rest m (kind :: kinds) (m :: cs) ∧ (u.openHere kind).indent = m := by
  have hopen : u.openHere kind = { u with indent := m, indents := u.indent :: u.indents }.pushHere kind := by
    simp [Scan.openHere, open?, h.column, hm]
  have hat : At { u with indent := m, indents := u.indent :: u.indents } rest m kinds (m :: cs) :=
    ⟨h.rest, h.column, h.kinds, h.count, h.outer, by rw [h.columns]⟩
  rw [hopen]
  exact ⟨⟨hat.push kind _ _, h.noKey, h.allowed⟩, rfl⟩

theorem AtLine.openHere_same (h : AtLine u rest m kinds cs) (hm : u.indent = m) (kind : TokenKind) :
    u.openHere kind = u := by
  simp [Scan.openHere, open?, h.column, hm]

theorem inFlow_eq (h : At u rest column kinds cs) : u.inFlow = false := by simp [inFlow, h.outer]

theorem dropKey_none (h : u.simpleKey = none) : u.dropKey = .ok u := by rw [dropKey, h]

theorem endsWord_of_isGap (h : isGap t = true) : endsWord t.head? = true := by
  obtain ⟨c, t', rfl, rfl | rfl⟩ := exists_of_isGap h <;> rfl

/-- A sign that white space follows is no document mark. -/
theorem atMark_sign {c x : Char} (h : u.cursor.rest = c :: t) (ht : isGap t = true) (hx : x ≠ ' ' ∧ x ≠ '\n') :
    u.atMark x = false := by
  obtain ⟨d, t', rfl, hd⟩ := exists_of_isGap ht
  have : d ≠ x := by rcases hd with rfl | rfl <;> [exact hx.1.symm; exact hx.2.symm]
  simp [atMark, h, this]

theorem endsWord_next {c : Char} (h : u.cursor.rest = c :: t) (ht : isGap t = true) :
    endsWord u.cursor.rest[1]? = true := by
  rw [h, List.getElem?_cons_succ, ← List.head?_eq_getElem?]
  exact endsWord_of_isGap ht

@[simp] theorem openHere_simpleKey (kind : TokenKind) : (u.openHere kind).simpleKey = u.simpleKey := by
  by_cases h : u.indent < u.cursor.column <;> simp [Scan.openHere, open?, h, pushHere, Scan.push]

@[simp] theorem openHere_cursor (kind : TokenKind) : (u.openHere kind).cursor = u.cursor := by
  by_cases h : u.indent < u.cursor.column <;> simp [Scan.openHere, open?, h, pushHere, Scan.push]

@[simp] theorem openHere_outer (kind : TokenKind) : (u.openHere kind).outer = u.outer := by
  by_cases h : u.indent < u.cursor.column <;> simp [Scan.openHere, open?, h, pushHere, Scan.push]

/-- The first entry of a collection opens it at its column; the others find it open. -/
inductive Opens (start : TokenKind) (m : Nat) (indent : Int) (kinds : List TokenKind) (columns : List Int) :
    List TokenKind → List Int → Prop
  | first (h : indent < m) : Opens start m indent kinds columns (start :: kinds) (m :: columns)
  | next (h : indent = m) : Opens start m indent kinds columns kinds columns

variable {kinds' : List TokenKind} {columns' : List Int}

theorem Opens.indent_le {start : TokenKind} {indent : Int} (h : Opens start m indent kinds columns kinds' columns') :
    indent ≤ m := by
  cases h with
  | first h => exact h.le
  | next h => exact h.le

/-- A dash in front of an item of a sequence. -/
theorem turn_dash (h : AtLine u ('-' :: t) m kinds columns) (ht : isGap t = true)
    (hopen : Opens .blockSequenceStart m u.indent kinds columns kinds' columns') :
    ∃ s, Turn u s ∧ Behind s t m true (.blockEntry :: kinds') columns' := by
  have hrest := h.rest
  have htoken : u.token '-' = u.blockEntry := by
    simp [token, atMark_sign (x := '-') hrest ht (by decide), atMark_sign (x := '.') hrest ht (by decide),
      endsWord_next hrest ht]
  have hentry : u.blockEntry =
      .ok ({ u.openHere .blockSequenceStart with keyAllowed := true }.pushSign .blockEntry 1) := by
    have hkey : (u.openHere .blockSequenceStart).dropKey = .ok (u.openHere .blockSequenceStart) :=
      dropKey_none (by rw [openHere_simpleKey, h.noKey])
    rw [blockEntry, if_neg (by simp [h.allowed]), inFlow_eq h.toAt, if_neg Bool.false_ne_true]
    dsimp only
    rw [hkey]
    rfl
  cases hopen with
  | first hm =>
    obtain ⟨hopened, hind⟩ := h.openHere hm .blockSequenceStart
    obtain ⟨s, hs, hbehind, hlt, hcursor⟩ := behind_sign hopened (by decide) hind .blockEntry
    exact ⟨s, ⟨'-', _, by rw [Cursor.peek_eq, hrest]; rfl, htoken.trans hentry, hs, by rwa [hrest], 1,
      by rw [hcursor, openHere_cursor]⟩, hbehind⟩
  | next hm =>
    rw [h.openHere_same hm] at hentry
    obtain ⟨s, hs, hbehind, hlt, hcursor⟩ := behind_sign h (by decide) hm .blockEntry
    exact ⟨s, ⟨'-', _, by rw [Cursor.peek_eq, hrest]; rfl, htoken.trans hentry, hs, by rwa [hrest], 1, hcursor⟩,
      hbehind⟩

/-- A question mark in front of a key of a mapping. -/
theorem turn_question (h : AtLine u ('?' :: t) m kinds columns) (ht : isGap t = true)
    (hopen : Opens .blockMappingStart m u.indent kinds columns kinds' columns') :
    ∃ s, Turn u s ∧ Behind s t m true (.key :: kinds') columns' := by
  have hrest := h.rest
  have htoken : u.token '?' = u.key := by
    simp [token, atMark_sign (x := '-') hrest ht (by decide), atMark_sign (x := '.') hrest ht (by decide),
      endsWord_next hrest ht]
  have hkey : u.key = .ok ({ u.openHere .blockMappingStart with keyAllowed := true }.pushSign .key 1) := by
    have hdrop : (u.openHere .blockMappingStart).dropKey = .ok (u.openHere .blockMappingStart) :=
      dropKey_none (by rw [openHere_simpleKey, h.noKey])
    rw [key, if_neg (by simp [h.allowed]), inFlow_eq h.toAt, if_neg Bool.false_ne_true]
    dsimp only
    rw [hdrop]
    simp [bind, Except.bind, inFlow, h.outer]
  cases hopen with
  | first hm =>
    obtain ⟨hopened, hind⟩ := h.openHere hm .blockMappingStart
    obtain ⟨s, hs, hbehind, hlt, hcursor⟩ := behind_sign hopened (by decide) hind .key
    exact ⟨s, ⟨'?', _, by rw [Cursor.peek_eq, hrest]; rfl, htoken.trans hkey, hs, by rwa [hrest], 1,
      by rw [hcursor, openHere_cursor]⟩, hbehind⟩
  | next hm =>
    rw [h.openHere_same hm] at hkey
    obtain ⟨s, hs, hbehind, hlt, hcursor⟩ := behind_sign h (by decide) hm .key
    exact ⟨s, ⟨'?', _, by rw [Cursor.peek_eq, hrest]; rfl, htoken.trans hkey, hs, by rwa [hrest], 1, hcursor⟩, hbehind⟩

theorem token_colon (h : u.cursor.rest = ':' :: t) (ht : isGap t = true) : u.token ':' = u.value := by
  simp [token, atMark_sign (x := '-') h ht (by decide), atMark_sign (x := '.') h ht (by decide), endsWord_next h ht]

/-- A colon on a line of its own, behind a key that is not simple. -/
theorem turn_colon (h : AtLine u (':' :: t) m kinds cs) (ht : isGap t = true) (hm : u.indent = m) :
    ∃ s, Turn u s ∧ Behind s t m true (.value :: kinds) cs := by
  have hrest := h.rest
  have htoken := token_colon hrest ht
  have hvalue : u.value = .ok ({ u with keyAllowed := true }.pushSign .value 1) := by
    rw [value, h.noKey]
    dsimp only
    rw [if_neg (by simp [h.allowed]), inFlow_eq h.toAt, if_neg Bool.false_ne_true, h.openHere_same hm]
    simp [inFlow, h.outer, h.noKey]
  obtain ⟨s, hs, hbehind, hlt, hcursor⟩ := behind_sign h (by decide) hm .value
  exact ⟨s, ⟨':', _, by rw [Cursor.peek_eq, hrest]; rfl, htoken.trans hvalue, hs, by rwa [hrest], 1, hcursor⟩, hbehind⟩

end NoteVault.Yaml.Scan
