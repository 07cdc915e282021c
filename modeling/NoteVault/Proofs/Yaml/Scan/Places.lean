import NoteVault.Proofs.Yaml.Scan.Forward
import NoteVault.Proofs.Yaml.Scan.Settle

/-!
The places of anchors and tags: each of them begins where the cursor stands when it is read, and the cursor goes on
behind it, so no two begin at one place.
-/
namespace NoteVault.Yaml

theorem Mark.index_after (m : Mark) (c : Char) (next : Option Char) : (m.after c next).index = m.index + 1 := by
  unfold Mark.after
  repeat' split
  all_goals rfl

namespace Cursor

/-- What has been read and what is left make up the text. -/
theorem index_next (c : Cursor) : c.next.mark.index + c.next.rest.length = c.mark.index + c.rest.length := by
  cases hrest : c.rest with
  | nil => rw [next, hrest, hrest]
  | cons x t =>
    rw [rest_next_cons hrest, next, hrest]
    simp only [Mark.index_after, List.length_cons]
    omega

theorem index_skip (c : Cursor) (n : Nat) :
    (c.skip n).mark.index + (c.skip n).rest.length = c.mark.index + c.rest.length := by
  induction n generalizing c with
  | zero => rfl
  | succ n ih => exact (ih c.next).trans (index_next c)

theorem Ahead.index_le {c d : Cursor} (h : c.Ahead d) : c.mark.index ≤ d.mark.index := by
  obtain ⟨n, rfl⟩ := h
  have := index_skip c n
  rw [skip_rest, List.length_drop] at this
  omega

theorem index_lt_next {c : Cursor} {x : Char} (h : c.peek = some x) : c.mark.index < c.next.mark.index := by
  have hindex := index_next c
  rw [peek_eq] at h
  obtain ⟨rest, hrest⟩ := List.head?_eq_some_iff.1 h
  rw [next_rest, hrest, List.tail_cons, List.length_cons] at hindex
  omega

end Cursor

/-- An anchor or a tag. -/
def isProperty : TokenKind → Bool
  | .anchor _ | .tag _ => true
  | _ => false

/-- Where the anchors and tags among tokens begin. -/
def propertyPlaces (tokens : List Token) : List Nat := (tokens.filter (isProperty ·.kind)).map (·.start.index)

@[simp] theorem propertyPlaces_append (ts us : List Token) :
    propertyPlaces (ts ++ us) = propertyPlaces ts ++ propertyPlaces us := by
  simp [propertyPlaces]

theorem propertyPlaces_cons_other {t : Token} (h : isProperty t.kind = false) (ts : List Token) :
    propertyPlaces (t :: ts) = propertyPlaces ts := by
  simp [propertyPlaces, h]

namespace Scan

variable {s t u v : Scan} {kind : TokenKind} {x : Char}

theorem propertyPlaces_push (h : isProperty kind = false) (start stop : Mark) (s : Scan) :
    propertyPlaces (s.push kind start stop).tokens = propertyPlaces s.tokens := propertyPlaces_cons_other h _

theorem propertyPlaces_insert (h : isProperty kind = false) (number : Nat) (mark : Mark) (s : Scan) :
    propertyPlaces (s.insert number kind mark).tokens = propertyPlaces s.tokens := by
  rw [Scan.insert, propertyPlaces_append, propertyPlaces_cons_other h, ← propertyPlaces_append, List.take_append_drop]

theorem propertyPlaces_close (column : Int) (fuel : Nat) (s : Scan) :
    propertyPlaces (closeTo.close column fuel s).tokens = propertyPlaces s.tokens ∧
      (closeTo.close column fuel s).cursor = s.cursor := by
  induction fuel generalizing s with
  | zero => exact ⟨rfl, rfl⟩
  | succ fuel ih =>
    rw [closeTo.close]
    split
    · obtain ⟨htokens, hcursor⟩ :=
        ih (pushHere .blockEnd { s with indent := s.indents.headD (-1), indents := s.indents.tail })
      exact ⟨htokens.trans (propertyPlaces_push rfl _ _ _), hcursor⟩
    · exact ⟨rfl, rfl⟩

theorem propertyPlaces_closeTo (column : Int) (s : Scan) :
    propertyPlaces (s.closeTo column).tokens = propertyPlaces s.tokens ∧ (s.closeTo column).cursor = s.cursor := by
  rw [closeTo]
  split
  · exact ⟨rfl, rfl⟩
  · exact propertyPlaces_close column _ s

theorem tokens_open? {column : Int} {opened : Bool} (h : s.open? column = (t, opened)) : t.tokens = s.tokens := by
  unfold open? at h
  split at h <;> cases h <;> rfl

theorem propertyPlaces_openHere (h : isProperty kind = false) (s : Scan) :
    propertyPlaces (s.openHere kind).tokens = propertyPlaces s.tokens := by
  unfold openHere
  split
  next hopen => exact (propertyPlaces_push h _ _ _).trans (congrArg propertyPlaces (tokens_open? hopen))
  next => rfl

theorem tokens_dropKey (h : s.dropKey = .ok t) : t.tokens = s.tokens ∧ t.cursor = s.cursor := by
  unfold dropKey at h
  split at h
  · split at h
    · cases h
    · cases h
      exact ⟨rfl, rfl⟩
  · cases h
    exact ⟨rfl, rfl⟩

theorem tokens_saveKey (h : s.saveKey = .ok t) : t.tokens = s.tokens ∧ t.cursor = s.cursor := by
  unfold saveKey at h
  split at h
  · simp only [bind_eq_ok] at h
    obtain ⟨_, hdrop, h⟩ := h
    have hkept := tokens_dropKey hdrop
    cases h
    exact hkept
  · cases h
    exact ⟨rfl, rfl⟩

theorem tokens_dropStale (h : s.dropStale = .ok t) : t.tokens = s.tokens ∧ t.cursor = s.cursor := by
  unfold dropStale at h
  dsimp only at h
  split at h
  · cases h
  · cases h
    exact ⟨rfl, rfl⟩

theorem tokens_toToken (s : Scan) : s.toToken.tokens = s.tokens := by
  have hloop : ∀ (fuel : Nat) (s : Scan), (toToken.loop fuel s).tokens = s.tokens := by
    intro fuel
    induction fuel with
    | zero => exact fun _ => rfl
    | succ fuel ih =>
      intro s
      unfold toToken.loop
      extract_lets
      split
      · exact ih _
      · rfl
  unfold toToken
  rw [hloop]
  split <;> rfl

theorem propertyPlaces_settle (h : s.settle = .ok v) : propertyPlaces v.tokens = propertyPlaces s.tokens := by
  simp only [settle, bind_eq_ok] at h
  obtain ⟨t, ht, h⟩ := h
  cases h
  rw [(propertyPlaces_closeTo _ t).1, (tokens_dropStale ht).1, tokens_toToken]

/-- A token with a text of its own begins at the cursor. -/
theorem tokens_withText {read : Cursor → Except Error (TokenKind × Cursor)} (h : u.withText read = .ok t) :
    ∃ kind after, read u.cursor = .ok (kind, after) ∧ t.tokens = ⟨kind, u.cursor.mark, after.mark⟩ :: u.tokens ∧
      t.cursor = after := by
  simp only [withText, bind_eq_ok] at h
  obtain ⟨s, hs, ⟨kind, after⟩, hread, h⟩ := h
  obtain ⟨htokens, hcursor⟩ := tokens_saveKey hs
  cases h
  exact ⟨kind, after, hcursor ▸ hread, by rw [← htokens, ← hcursor]; rfl, rfl⟩

theorem propertyPlaces_withText {α : Type} {read : Cursor → Except Error α} {f : α → TokenKind × Cursor}
    (h : u.withText (fun c => (read c).map f) = .ok t) (hf : ∀ a, isProperty (f a).1 = false) :
    propertyPlaces t.tokens = propertyPlaces u.tokens := by
  obtain ⟨kind, after, hread, htokens, -⟩ := tokens_withText h
  cases ha : read u.cursor with
  | error e => simp [ha, Except.map] at hread
  | ok a =>
    rw [ha] at hread
    rw [htokens, propertyPlaces_cons_other]
    have := hf a
    rwa [Except.ok.inj hread] at this

/-- Behind a token in which the places of the properties are kept, or one more begins at the cursor. -/
def Places (u t : Scan) : Prop := propertyPlaces t.tokens = propertyPlaces u.tokens ∨
  (propertyPlaces t.tokens = u.cursor.mark.index :: propertyPlaces u.tokens ∧ u.cursor.next.Ahead t.cursor)

theorem places_withProperty {α : Type} {read : Cursor → Except Error (α × Cursor)} {f : α → TokenKind}
    (h : u.withText (fun c => (read c).map fun (a, c) => (f a, c)) = .ok t)
    (hread : ∀ c : Cursor, c.next.GoesOn Prod.snd (read c)) : Places u t := by
  obtain ⟨kind, after, hkind, htokens, hcursor⟩ := tokens_withText h
  have hahead : u.cursor.next.Ahead t.cursor := by
    cases ha : read u.cursor with
    | error e => simp [ha, Except.map] at hkind
    | ok a =>
      rw [ha] at hkind
      have := (hread u.cursor).ahead a ha
      rwa [hcursor, ← (Prod.mk.inj (Except.ok.inj hkind)).2]
  unfold Places
  rw [htokens]
  cases kind with
  | anchor _ | tag _ => exact .inr ⟨rfl, hahead⟩
  | _ => exact .inl rfl

theorem propertyPlaces_directive (h : u.directive = .ok t) : propertyPlaces t.tokens = propertyPlaces u.tokens := by
  simp only [directive, bind_eq_ok] at h
  obtain ⟨s, hs, _, -, h⟩ := h
  cases h
  exact (propertyPlaces_push rfl _ _ s).trans (by rw [(tokens_dropKey hs).1, (propertyPlaces_closeTo _ u).1])

theorem propertyPlaces_documentMark (hk : isProperty kind = false) (h : u.documentMark kind = .ok t) :
    propertyPlaces t.tokens = propertyPlaces u.tokens := by
  simp only [documentMark, bind_eq_ok] at h
  obtain ⟨s, hs, h⟩ := h
  cases h
  exact (propertyPlaces_push hk _ _ { s with keyAllowed := false }).trans
    (by rw [(tokens_dropKey hs).1, (propertyPlaces_closeTo _ u).1])

theorem propertyPlaces_flowStart (hk : isProperty kind = false) (h : u.flowStart kind = .ok t) :
    propertyPlaces t.tokens = propertyPlaces u.tokens := by
  simp only [flowStart, bind_eq_ok] at h
  obtain ⟨s, hs, h⟩ := h
  cases h
  exact (propertyPlaces_push hk _ _ { s with simpleKey := _, outer := _, keyAllowed := _ }).trans
    (by rw [(tokens_saveKey hs).1])

theorem propertyPlaces_flowEnd (hk : isProperty kind = false) (h : u.flowEnd kind = .ok t) :
    propertyPlaces t.tokens = propertyPlaces u.tokens := by
  simp only [flowEnd, bind_eq_ok] at h
  obtain ⟨s, hs, h⟩ := h
  cases h
  exact (propertyPlaces_push hk _ _ { s with simpleKey := _, outer := _, keyAllowed := _ }).trans
    (by rw [(tokens_dropKey hs).1])

theorem propertyPlaces_flowEntry (h : u.flowEntry = .ok t) : propertyPlaces t.tokens = propertyPlaces u.tokens := by
  simp only [flowEntry, bind_eq_ok] at h
  obtain ⟨s, hs, h⟩ := h
  cases h
  exact (propertyPlaces_push rfl _ _ { s with keyAllowed := true }).trans (by rw [(tokens_dropKey hs).1])

theorem propertyPlaces_opened (hk : isProperty kind = false) (u : Scan) :
    propertyPlaces (if u.inFlow then u else u.openHere kind).tokens = propertyPlaces u.tokens := by
  split
  · rfl
  · exact propertyPlaces_openHere hk u

theorem propertyPlaces_blockEntry (h : u.blockEntry = .ok t) : propertyPlaces t.tokens = propertyPlaces u.tokens := by
  unfold blockEntry at h
  split at h
  · cases h
  · simp only [bind_eq_ok] at h
    obtain ⟨s, hs, h⟩ := h
    cases h
    exact (propertyPlaces_push rfl _ _ { s with keyAllowed := true }).trans
      (by rw [(tokens_dropKey hs).1, propertyPlaces_opened rfl])

theorem propertyPlaces_key (h : u.key = .ok t) : propertyPlaces t.tokens = propertyPlaces u.tokens := by
  unfold key at h
  split at h
  · cases h
  · simp only [bind_eq_ok] at h
    obtain ⟨s, hs, h⟩ := h
    cases h
    exact (propertyPlaces_push rfl _ _ { s with keyAllowed := _ }).trans
      (by rw [(tokens_dropKey hs).1, propertyPlaces_opened rfl])

theorem propertyPlaces_value (h : u.value = .ok t) : propertyPlaces t.tokens = propertyPlaces u.tokens := by
  unfold value at h
  split at h
  next k _ =>
    cases h
    refine (propertyPlaces_push rfl _ _ { (_ : Scan) with keyAllowed := _ }).trans ?_
    have hkey : propertyPlaces (Scan.insert k.number .key k.mark { u with simpleKey := none }).tokens =
        propertyPlaces u.tokens := propertyPlaces_insert rfl _ _ _
    generalize Scan.insert k.number .key k.mark { u with simpleKey := none } = s at hkey
    dsimp only
    split
    · exact hkey
    · split
      next hopen => exact (propertyPlaces_insert rfl _ _ _).trans (tokens_open? hopen ▸ hkey)
      next => exact hkey
  · split at h
    · cases h
    · cases h
      exact (propertyPlaces_push rfl _ _ { (_ : Scan) with keyAllowed := _ }).trans (propertyPlaces_opened rfl u)

theorem propertyPlaces_block {folded : Bool} (h : u.block folded = .ok t) :
    propertyPlaces t.tokens = propertyPlaces u.tokens := by
  simp only [block, bind_eq_ok] at h
  obtain ⟨s, hs, _, -, h⟩ := h
  cases h
  exact (propertyPlaces_push rfl _ _ s).trans (by rw [(tokens_dropKey hs).1])

theorem propertyPlaces_plain (h : u.plain = .ok t) : propertyPlaces t.tokens = propertyPlaces u.tokens := by
  simp only [plain, bind_eq_ok] at h
  obtain ⟨s, hs, h⟩ := h
  cases h
  exact (propertyPlaces_push rfl _ _ s).trans (by rw [(tokens_saveKey hs).1])

theorem forall_ok_ite {c : Prop} [Decidable c] {a b : Except Error Scan} {p : Scan → Prop} (ha : ∀ t, a = .ok t → p t)
    (hb : ∀ t, b = .ok t → p t) : ∀ t, (if c then a else b) = .ok t → p t := by
  split
  · exact ha
  · exact hb

theorem propertyPlaces_streamEnd (h : u.streamEnd = .ok t) :
    propertyPlaces t.tokens = propertyPlaces u.tokens ∧ t.cursor = u.cursor := by
  simp only [streamEnd, bind_eq_ok] at h
  obtain ⟨s, hs, h⟩ := h
  obtain ⟨htokens, hcursor⟩ := tokens_dropKey hs
  obtain ⟨hplaces, hclosed⟩ := propertyPlaces_closeTo (-1) u
  cases h
  exact ⟨(propertyPlaces_push rfl _ _ { s with keyAllowed := _, simpleKey := _, outer := _ }).trans
    ((congrArg propertyPlaces htokens).trans hplaces), hcursor.trans hclosed⟩

theorem places_token (u : Scan) (x : Char) : ∀ t, u.token x = .ok t → Places u t :=
  forall_ok_ite (fun _ h => .inl (propertyPlaces_directive h)) <|
  forall_ok_ite (fun _ h => .inl (propertyPlaces_documentMark rfl h)) <|
  forall_ok_ite (fun _ h => .inl (propertyPlaces_documentMark rfl h)) <|
  forall_ok_ite (fun _ h => .inl (propertyPlaces_flowStart rfl h)) <|
  forall_ok_ite (fun _ h => .inl (propertyPlaces_flowStart rfl h)) <|
  forall_ok_ite (fun _ h => .inl (propertyPlaces_flowEnd rfl h)) <|
  forall_ok_ite (fun _ h => .inl (propertyPlaces_flowEnd rfl h)) <|
  forall_ok_ite (fun _ h => .inl (propertyPlaces_flowEntry h)) <|
  forall_ok_ite (fun _ h => .inl (propertyPlaces_blockEntry h)) <|
  forall_ok_ite (fun _ h => .inl (propertyPlaces_key h)) <|
  forall_ok_ite (fun _ h => .inl (propertyPlaces_value h)) <|
  forall_ok_ite (fun _ h => .inl (propertyPlaces_withText h fun _ => rfl)) <|
  forall_ok_ite (fun _ h => places_withProperty h (Cursor.goesOn_anchorName _)) <|
  forall_ok_ite (fun _ h => places_withProperty h Cursor.goesOn_tag) <|
  forall_ok_ite (fun _ h => .inl (propertyPlaces_block h)) <|
  forall_ok_ite (fun _ h => .inl (propertyPlaces_block h)) <|
  forall_ok_ite (fun _ h => .inl (propertyPlaces_withText h fun _ => rfl)) <|
  forall_ok_ite (fun _ h => .inl (propertyPlaces_withText h fun _ => rfl)) <|
  forall_ok_ite (fun _ h => .inl (propertyPlaces_plain h)) nofun

/-- Every property begins behind the one before it, and in front of the cursor. -/
structure InPlaces (s : Scan) : Prop where
  sorted : (propertyPlaces s.tokens).Pairwise (· > ·)
  below : ∀ p ∈ propertyPlaces s.tokens, p < s.cursor.mark.index

theorem InPlaces.kept (h : InPlaces s) (hplaces : propertyPlaces t.tokens = propertyPlaces s.tokens)
    (hahead : s.cursor.Ahead t.cursor) : InPlaces t where
  sorted := by
    rw [hplaces]
    exact h.sorted
  below p hp := by
    rw [hplaces] at hp
    exact (h.below p hp).trans_le hahead.index_le

/-- A property at the cursor begins behind all others. -/
theorem InPlaces.token (h : InPlaces u) (hx : u.cursor.peek = some x) (ht : u.token x = .ok t)
    (hahead : u.cursor.Ahead t.cursor) : InPlaces t := by
  obtain hplaces | ⟨hplaces, hnext⟩ := places_token u x t ht
  · exact h.kept hplaces hahead
  · have hlt : u.cursor.mark.index < t.cursor.mark.index :=
      (Cursor.index_lt_next hx).trans_le hnext.index_le
    constructor
    · rw [hplaces]
      exact List.pairwise_cons.2 ⟨h.below, h.sorted⟩
    · intro p hp
      rw [hplaces] at hp
      obtain rfl | hp := List.mem_cons.1 hp
      · exact hlt
      · exact (h.below p hp).trans hlt

end Scan

end NoteVault.Yaml
