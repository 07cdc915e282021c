import NoteVault.Proofs.Yaml.Scan.Content

/-!
The tokens of a whole header: those of its entries, in one mapping at the first column.
-/
namespace NoteVault.Yaml

open Form (spaces)

theorem isAcceptable_of_isOrdinary {c : Char} (h : Form.isOrdinary c = true) : isAcceptable c = true := by
  simp only [Form.isOrdinary, isAcceptable, Bool.or_eq_true, Bool.and_eq_true, decide_eq_true_eq] at h ⊢
  omega

theorem isAcceptable_of_isBare {c : Char} (h : Form.isBare c = true) : isAcceptable c = true := by
  simp only [Form.isBare, isAcceptable, Bool.or_eq_true, Bool.and_eq_true, decide_eq_true_eq] at h ⊢
  omega

namespace Form

theorem isAcceptable_of_mem_spaces {n : Nat} {c : Char} (h : c ∈ spaces n) : isAcceptable c = true := by
  rw [(List.mem_replicate.1 h).2]
  decide

theorem isAcceptable_of_mem_doubleChar {c y : Char} (h : y ∈ doubleChar c) : isAcceptable y = true := by
  obtain h | rfl | rfl := mem_doubleChar h
  · exact isAcceptable_of_isBare h
  · decide
  · decide

theorem isAcceptable_of_mem_singleBody {n : Nat} {s : List Char} (hs : ∀ c ∈ s, isAcceptable c = true) (b : Bool)
    {y : Char} (hy : y ∈ singleBody n b s) : isAcceptable y = true := by
  induction s generalizing b with
  | nil =>
    cases b with
    | false => simp [singleBody] at hy
    | true => exact isAcceptable_of_mem_spaces hy
  | cons c s ih =>
    have hc := hs c (by simp)
    have hrest : ∀ b, y ∈ singleBody n b s → isAcceptable y = true := fun b hy =>
      ih (fun d hd => hs d (List.mem_cons_of_mem _ hd)) b hy
    rw [singleBody] at hy
    split at hy
    · obtain hy | hy := List.mem_append.1 hy
      · split at hy <;> simp only [List.mem_cons, List.not_mem_nil, or_false] at hy
        · rcases hy with rfl | rfl <;> [decide; exact hc]
        · exact hy ▸ hc
      · exact hrest _ hy
    · obtain hy | hy := List.mem_append.1 hy
      · obtain hy | hy := List.mem_append.1 hy
        · cases b with
          | false => simp at hy
          | true => exact isAcceptable_of_mem_spaces hy
        · split at hy <;> simp only [List.mem_cons, List.not_mem_nil, or_false] at hy
          · rcases hy with rfl | rfl <;> decide
          · exact hy ▸ hc
      · exact hrest _ hy

/-- What is written for a text may stand in a document. -/
theorem isAcceptable_of_mem_body {style : Style} {text : List Char} (h : IsReadable style text) {i : Nat} {y : Char}
    (hy : y ∈ body i style text) : isAcceptable y = true := by
  cases style with
  | plain =>
    have hplain := h.1
    simp only [allowsPlain, allowsSingle, needsDouble, Bool.and_eq_true, Bool.not_eq_true', Bool.or_eq_false_iff,
      Bool.not_eq_false', List.all_eq_true] at hplain
    exact isAcceptable_of_isOrdinary (hplain.1.1.1.1.1.1.2 y hy)
  | single =>
    simp only [body, List.cons_append, List.mem_cons, List.mem_append, List.not_mem_nil, or_false] at hy
    rcases hy with rfl | hy | rfl
    · decide
    · exact isAcceptable_of_mem_singleBody (fun c hc => isAcceptable_of_isOrdinary (h.ordinary c hc)) _ hy
    · decide
  | double =>
    simp only [body, List.cons_append, List.mem_cons, List.mem_append, List.mem_flatMap, List.not_mem_nil,
      or_false] at hy
    rcases hy with rfl | ⟨c, -, hy⟩ | rfl
    · decide
    · exact isAcceptable_of_mem_doubleChar hy
    · decide
  | literal =>
    obtain ⟨lines, -, hlines, rfl⟩ := h
    rw [body_literal hlines, List.mem_cons] at hy
    obtain rfl | hy := hy
    · decide
    obtain ⟨line, hline, hy⟩ := List.mem_flatMap.1 hy
    rcases List.mem_cons.1 hy with rfl | hy
    · decide
    obtain hy | hy := List.mem_append.1 hy
    · exact isAcceptable_of_mem_spaces hy
    · exact (hlines line hline).acceptable y hy
  | folded => exact absurd h id

theorem isAcceptable_of_mem_tagText {tag : Tag} (h : tag.isStandard = true) {y : Char} (hy : y ∈ tagText tag) :
    isAcceptable y = true := by
  have htag : ∀ t : Tag, t.isStandard = true → (tagText t).all isAcceptable = true := by
    intro t ht
    cases t with
    | other text => exact absurd ht (by simp [Tag.isStandard])
    | _ => decide
  exact List.all_eq_true.1 (htag tag h) y hy

theorem isAcceptable_of_mem_scalar {tag : Tag} (htag : tag.isStandard = true) {asKey : Bool} {wish : Option Style}
    {text : List Char} (h : IsReadable (styleFor asKey tag wish text) text) {i : Nat} {y : Char}
    (hy : y ∈ scalar i asKey tag wish text) : isAcceptable y = true := by
  unfold scalar at hy
  dsimp only at hy
  obtain hy | hy := List.mem_append.1 hy
  · split at hy
    · obtain hy | hy := List.mem_append.1 hy
      · exact isAcceptable_of_mem_tagText htag hy
      · rw [List.mem_singleton.1 hy]
        decide
    · simp at hy
  · exact isAcceptable_of_mem_body h hy

end Form

namespace Content

theorem isAcceptable_of_mem_anchorName {n : Nat} {y : Char} (h : y ∈ anchorName n) : isAcceptable y = true := by
  simp only [anchorName, List.mem_append] at h
  rcases h with (h | h) | h
  · exact List.all_eq_true.1 (by decide : "id".toList.all isAcceptable = true) y h
  · rw [(List.mem_replicate.1 h).2]; decide
  · obtain ⟨d, hd, rfl⟩ := Text.exists_digit_of_mem_toDigits (by decide) h
    exact (by decide : ∀ d < 10, isAcceptable (Nat.digitChar d) = true) d hd

theorem isAcceptable_of_mem_anchorText {anchor : Option Nat} {y : Char} (h : y ∈ anchorText anchor) :
    isAcceptable y = true := by
  cases anchor with
  | none => simp [anchorText] at h
  | some n =>
    obtain h | h := List.mem_append.1 h
    · exact List.all_eq_true.1 (by decide : " &".toList.all isAcceptable = true) y h
    · exact isAcceptable_of_mem_anchorName h

theorem isAcceptable_of_mem_place {m : Nat} {b : Bool} {entries : List (List Char)}
    (h : ∀ e ∈ entries, ∀ y ∈ e, isAcceptable y = true) {y : Char} (hy : y ∈ place m b entries) :
    isAcceptable y = true := by
  have hbreak : ∀ {y : Char}, y ∈ '\n' :: spaces m → isAcceptable y = true := fun hy => by
    rcases List.mem_cons.1 hy with rfl | hy
    · decide
    · exact Form.isAcceptable_of_mem_spaces hy
  cases entries with
  | nil => simp [place] at hy
  | cons e rest =>
    simp only [place, List.mem_append, List.mem_flatMap] at hy
    rcases hy with (hy | hy) | ⟨e', he', hy⟩
    · cases b with
      | false => exact hbreak hy
      | true =>
        rw [List.mem_singleton.1 hy]
        decide
    · exact h e (by simp) y hy
    · rcases hy with hy | hy
      · exact hbreak hy
      · exact h e' (List.mem_cons_of_mem _ he') y hy

mutual

/-- What is written for a content may stand in a document. -/
theorem isAcceptable_of_mem_write : ∀ (c : Content) {n : Nat} {b : Bool}, c.IsSound →
    ∀ y ∈ write n b c, isAcceptable y = true
  | aliasOf m, n, b, _, y, hy => by
    obtain hy | hy := List.mem_append.1 hy
    · exact List.all_eq_true.1 (by decide : " *".toList.all isAcceptable = true) y hy
    · exact isAcceptable_of_mem_anchorName hy
  | scalar anchor tag wish text, n, b, hsound, y, hy => by
    rw [write] at hy
    obtain hy | hy := List.mem_append.1 hy
    · exact isAcceptable_of_mem_anchorText hy
    rcases List.mem_cons.1 hy with rfl | hy
    · decide
    · exact Form.isAcceptable_of_mem_scalar hsound.1 hsound.2 hy
  | sequence anchor items, n, b, hsound, y, hy => by
    rw [write] at hy
    obtain hy | hy := List.mem_append.1 hy
    · exact isAcceptable_of_mem_anchorText hy
    split at hy
    · exact List.all_eq_true.1 (by decide : " []".toList.all isAcceptable = true) y hy
    · exact isAcceptable_of_mem_place (isAcceptable_of_mem_writeItems items hsound) hy
  | mapping anchor tag entries, n, b, hsound, y, hy => by
    rw [write] at hy
    obtain hy | hy := List.mem_append.1 hy
    · obtain hy | hy := List.mem_append.1 hy
      · exact isAcceptable_of_mem_anchorText hy
      · split at hy
        · simp at hy
        · rcases List.mem_cons.1 hy with rfl | hy
          · decide
          · exact Form.isAcceptable_of_mem_tagText hsound.1 hy
    split at hy
    · exact List.all_eq_true.1 (by decide : " \x7b\x7d".toList.all isAcceptable = true) y hy
    · exact isAcceptable_of_mem_place (isAcceptable_of_mem_writeEntries entries hsound.2) hy

theorem isAcceptable_of_mem_writeItems : ∀ (items : List Content) {n : Nat}, AreSound items →
    ∀ e ∈ writeItems n items, ∀ y ∈ e, isAcceptable y = true
  | [], _, _, e, he => absurd he (by simp [writeItems])
  | c :: rest, n, hsound, e, he => by
    rw [writeItems, List.mem_cons] at he
    obtain rfl | he := he
    · intro y hy
      rcases List.mem_cons.1 hy with rfl | hy
      · decide
      · exact isAcceptable_of_mem_write c hsound.1 y hy
    · exact isAcceptable_of_mem_writeItems rest hsound.2 e he

theorem isAcceptable_of_mem_writeEntries : ∀ (entries : List (String × Content)) {n : Nat},
    EntriesAreSound entries → ∀ e ∈ writeEntries n entries, ∀ y ∈ e, isAcceptable y = true
  | [], _, _, e, he => absurd he (by simp [writeEntries])
  | (k, c) :: rest, n, hsound, e, he => by
    have hread := hsound.1.readable
    rw [writeEntries, List.mem_cons] at he
    obtain rfl | he := he
    · intro y hy
      dsimp only at hy
      split at hy
      next hsimple =>
        rw [hsimple] at hread
        obtain hy | hy := List.mem_append.1 hy
        · exact Form.isAcceptable_of_mem_scalar rfl hread hy
        · rcases List.mem_cons.1 hy with rfl | hy
          · decide
          · exact isAcceptable_of_mem_write c hsound.2.1 y hy
      next hsimple =>
        rw [Bool.not_eq_true] at hsimple
        rw [hsimple] at hread
        simp only [List.mem_append, List.mem_cons] at hy
        rcases hy with ((hy | hy) | rfl | hy) | rfl | hy
        · exact List.all_eq_true.1 (by decide : "? ".toList.all isAcceptable = true) y hy
        · exact Form.isAcceptable_of_mem_scalar rfl hread hy
        · decide
        · exact Form.isAcceptable_of_mem_spaces hy
        · decide
        · exact isAcceptable_of_mem_write c hsound.2.1 y hy
    · exact isAcceptable_of_mem_writeEntries rest hsound.2.2 e he

end

theorem writeAll_eq_joined (entries : List (String × Content)) :
    writeAll entries = Scan.joined 0 (writeEntries 0 entries) := by
  unfold writeAll
  cases writeEntries 0 entries <;> rfl

end Content

theorem firstUnacceptable_none {s : List Char} (h : ∀ c ∈ s, isAcceptable c = true) (n : Nat) :
    firstUnacceptable n s = none := by
  induction s generalizing n with
  | nil => rfl
  | cons c s ih =>
    rw [firstUnacceptable, if_pos (h c (by simp))]
    exact ih (fun d hd => h d (List.mem_cons_of_mem _ hd)) _

/-- At the end of a text whose mapping is still open. -/
theorem Scan.streamEnd_line {v : Scan} {kinds : List TokenKind} (h : AtLine v [] 0 kinds [0, -1]) :
    ∃ w, v.streamEnd = .ok w ∧ w.tokens.map Token.kind = .streamEnd :: .blockEnd :: kinds := by
  obtain ⟨hclosed, hkey, -, -⟩ := closeTo_columns (-1) [0] (show At v [] _ _ ([0] ++ [-1]) from h.toAt) (by simp)
    ⟨-1, [], rfl, by decide⟩
  refine ⟨({ v.closeTo (-1) with keyAllowed := false, simpleKey := none, outer := [] } : Scan).pushHere .streamEnd, ?_,
    congrArg (TokenKind.streamEnd :: ·) hclosed.kinds⟩
  rw [streamEnd, dropKey_none (hkey.trans h.noKey)]
  rfl

namespace Content

theorem isAcceptable_of_mem_writeAll {entries : List (String × Content)} (hne : entries ≠ [])
    (h : EntriesAreSound entries)
    {c : Char} (hc : c ∈ writeAll entries ++ ['\n']) : isAcceptable c = true := by
  obtain hc | hc := List.mem_append.1 hc
  · refine isAcceptable_of_mem_place (m := 0) (b := true) (isAcceptable_of_mem_writeEntries entries (n := 0) h) ?_
    rw [Scan.place_eq (by cases entries <;> simp_all [writeEntries]), ← writeAll_eq_joined]
    exact List.mem_append_right _ hc
  · rw [List.mem_singleton.1 hc]
    decide

/-- From the beginning of the lines of a mapping to their end. -/
theorem leads_writeAll {entries : List (String × Content)} (hne : entries ≠ []) (h : EntriesAreSound entries) :
    ∃ v, Scan.Leads (Scan.start (String.ofList (writeAll entries ++ ['\n']))) v ∧
      Scan.AtLine v [] 0 ((entryKinds entries).reverse ++ [.blockMappingStart]) [0, -1] := by
  obtain ⟨text, htext⟩ : ∃ text, text = writeAll entries ++ ['\n'] := ⟨_, rfl⟩
  have hjoined : text = Scan.joined 0 (writeEntries 0 entries) ++ '\n' :: (spaces 0 ++ []) := by
    rw [htext, writeAll_eq_joined]
    rfl
  rw [← htext]
  have hstart : Scan.At (Scan.start (String.ofList text)) (spaces 0 ++ text) 0 [] [-1] :=
    ⟨by simp [Scan.start, Cursor.ofString, spaces], rfl, rfl, rfl, rfl, rfl⟩
  have hfirst : StartsToken text := by
    cases entries with
    | nil => exact absurd rfl hne
    | cons e rest =>
      obtain ⟨key, c⟩ := e
      rw [hjoined]
      exact (Scan.follows_entries h.1 c rest 0 0 _).toStartsToken
  obtain ⟨u, hu, hat, -, hallowed, hnone, hcursor⟩ := Scan.settle_blanks hstart hfirst (Scan.isIdle_of_none rfl)
    ⟨-1, [], rfl, by decide⟩
  have hindent : u.indent = -1 := (List.cons.inj hat.columns).1
  exact Scan.leads_writeEntries entries [] hne h (.here hu ⟨0, hcursor⟩) ⟨hjoined ▸ hat, hnone rfl, hallowed⟩
    (.first (by rw [hindent]; decide)) le_rfl
    (.none ⟨⟨by simp, by simp, by simp, by simp⟩, fun _ => rfl⟩ ⟨0, [-1], rfl, by decide⟩)

/-- The tokens of the lines of a mapping. -/
theorem tokens_writeAll {entries : List (String × Content)} (hne : entries ≠ []) (h : EntriesAreSound entries) :
    ∃ tokens, TokenList.ofString (String.ofList (writeAll entries ++ ['\n'])) = ⟨tokens, none⟩ ∧
      tokens.map Token.kind = .blockMappingStart :: entryKinds entries ++ [.blockEnd, .streamEnd] := by
  obtain ⟨v, hv, hatv⟩ := leads_writeAll hne h
  obtain ⟨w, hstream, hw⟩ := Scan.streamEnd_line hatv
  refine ⟨w.tokens.reverse, ?_, by rw [List.map_reverse, hw]; simp⟩
  unfold TokenList.ofString
  rw [String.toList_ofList, firstUnacceptable_none fun c => isAcceptable_of_mem_writeAll hne h]
  refine Scan.run_of_leads hv hatv.rest hstream _ ?_
  rw [String.length_ofList, Scan.start, Cursor.ofString, String.toList_ofList]
  exact Nat.lt_succ_self _

end Content

end NoteVault.Yaml
