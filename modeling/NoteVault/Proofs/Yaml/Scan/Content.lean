import NoteVault.Proofs.Yaml.Kinds
import NoteVault.Proofs.Yaml.Scan.Key

/-!
The scanner on the text of a content. Behind a sign it reads the tokens of the content and arrives at the
next line, whatever is indented further being closed there.
-/
namespace NoteVault.Yaml.Scan

open Form (spaces)
open Content (write writeItems writeEntries)

variable {u s : Scan} {rest t r : List Char} {n m k column : Nat} {kinds kinds' : List TokenKind}
  {columns columns' cs ds : List Int}

/-- What comes next at a column, after the collections that are indented further have been closed. -/
structure Closes (k : Nat) (r : List Char) (ds cs : List Int) : Prop where
  follows : Follows k r
  deeper : ∀ d ∈ ds, (k : Int) < d
  within : isWithin k cs

theorem Closes.none (h : Follows k r) (hcs : isWithin k cs) : Closes k r [] cs := ⟨h, by simp, hcs⟩

theorem startsDocument_append {x y : Char} {w : List Char} (h : startsDocument (x :: w) = false)
    (hy : y ≠ '-' ∧ y ≠ '.') : startsDocument (x :: w ++ y :: t) = false := by
  simp only [startsDocument, Bool.or_eq_false_iff, decide_eq_false_iff_not] at h ⊢
  exact ⟨fun he => h.1 (take_three_append hy.1 he), fun he => h.2 (take_three_append hy.2 he)⟩

/-- A written text at the end of its line. -/
theorem Inside.body (ds : List Int) {style : Style} {text : List Char} {i : Nat}
    (h : Inside s (' ' :: (Form.body i style text ++ '\n' :: (spaces k ++ r))) n kinds (ds ++ cs))
    (hread : Form.IsReadable style text) (hi : n < i) (hk : k ≤ n) (hc : Closes k r ds cs) :
    ∃ v, Leads s v ∧ AtLine v r k
      (List.replicate ds.length .blockEnd ++ .scalar (String.ofList text) style :: kinds) cs := by
  have hr := hc.follows.toStartsToken
  cases style with
  | plain =>
    obtain ⟨hplain, hne⟩ := hread
    cases text with
    | nil => exact absurd rfl hne
    | cons x w => exact Inside.plain h hplain hk hc.follows hc.deeper hc.within
  | single => exact h.single hread (by omega) hr hc.deeper hc.within
  | double => exact h.double hr hc.deeper hc.within
  | literal =>
    obtain ⟨lines, hne, hlines, rfl⟩ := hread
    rw [body_literal hlines] at h
    exact h.literal hlines hne hi hk hc.follows hc.deeper hc.within
  | folded => exact absurd hread id

/-- A scalar with its tag, if that is written. -/
theorem Inside.scalar {tag : Tag} {wish : Option Style} {text : List Char} {i : Nat}
    (h : Inside s (' ' :: (Form.scalar i false tag wish text ++ '\n' :: (spaces k ++ r))) n kinds (ds ++ cs))
    (htag : tag.isStandard = true) (hread : Form.IsReadable (Form.styleFor false tag wish text) text)
    (hi : n < i) (hk : k ≤ n) (hc : Closes k r ds cs) :
    ∃ v, Leads s v ∧ AtLine v r k
      (List.replicate ds.length .blockEnd ++ ((Content.scalarKinds tag wish text).reverse ++ kinds)) cs := by
  unfold Form.scalar at h
  unfold Content.scalarKinds
  change Inside s (' ' :: ((if Form.showsTag (Form.styleFor false tag wish text) tag text then _ else []) ++
    Form.body i (Form.styleFor false tag wish text) text ++ _)) n kinds (ds ++ cs) at h
  by_cases hshow : Form.showsTag (Form.styleFor false tag wish text) tag text = true
  · obtain ⟨htext, hne, halpha⟩ := Form.tagText_eq htag
    rw [if_pos hshow, htext] at h
    simp only [List.append_assoc] at h
    obtain ⟨s', hs', hin⟩ := h.tag halpha hne rfl
    obtain ⟨v, hv, hat⟩ := hin.body ds hread hi hk hc
    refine ⟨v, hs' hv, ?_⟩
    simpa [hshow, Content.tagKind] using hat
  · rw [if_neg hshow, List.nil_append] at h
    obtain ⟨v, hv, hat⟩ := h.body ds hread hi hk hc
    refine ⟨v, hv, ?_⟩
    simpa [hshow] using hat

/-- An anchor in front of what is left of a content. -/
theorem Inside.anchorText (anchor : Option Nat) (h : Inside s (Content.anchorText anchor ++ t) n kinds cs)
    (ht : isGap t = true) :
    ∃ s', Continues s s' ∧ Inside s' t n ((Content.anchorKinds anchor).reverse ++ kinds) cs := by
  cases anchor with
  | none => exact ⟨s, id, h⟩
  | some m => exact Inside.anchor h ht

/-- An anchor and the tag of a mapping. -/
theorem Inside.properties (anchor : Option Nat) {tag : Tag} (htag : tag.isStandard = true)
    (h : Inside s (Content.anchorText anchor ++ ((if tag = .map then [] else ' ' :: Form.tagText tag) ++ t)) n kinds cs)
    (ht : isGap t = true) :
    ∃ s', Continues s s' ∧
      Inside s' t n ((Content.anchorKinds anchor ++ if tag = .map then [] else [Content.tagKind tag]).reverse ++
        kinds) cs := by
  obtain ⟨htext, hne, halpha⟩ := Form.tagText_eq htag
  by_cases hmap : tag = .map
  · simp only [hmap, if_true, List.nil_append, List.append_nil] at h ⊢
    exact h.anchorText anchor ht
  · simp only [hmap, if_false, htext] at h ⊢
    obtain ⟨s', hs', hin⟩ := h.anchorText anchor rfl
    obtain ⟨s'', hs'', hin'⟩ := hin.tag halpha hne ht
    refine ⟨s'', hs'.trans hs'', ?_⟩
    simpa [Content.tagKind] using hin'

/-- The entries of a collection, the first one on the line that has been begun. -/
def joined (m : Nat) : List (List Char) → List Char
  | [] => []
  | e :: rest => e ++ rest.flatMap fun e => '\n' :: spaces m ++ e

theorem joined_cons (m : Nat) (e e' : List Char) (rest : List (List Char)) :
    joined m (e :: e' :: rest) = e ++ '\n' :: (spaces m ++ joined m (e' :: rest)) := by
  simp [joined]

theorem place_eq {entries : List (List Char)} (h : entries ≠ []) (m : Nat) (sameLine : Bool) :
    Content.place m sameLine entries = (if sameLine then [' '] else '\n' :: spaces m) ++ joined m entries := by
  cases entries with
  | nil => exact absurd rfl h
  | cons e rest => simp [Content.place, joined]

theorem isGap_write (n : Nat) (sameLine : Bool) (c : Content) (t : List Char) :
    isGap (write n sameLine c ++ t) = true := by
  have hplace : ∀ (entries : List (List Char)) (m : Nat) (b : Bool), entries ≠ [] →
      isGap (Content.place m b entries ++ t) = true := by
    intro entries m b hne
    cases entries with
    | nil => exact absurd rfl hne
    | cons e rest => cases b <;> rfl
  cases c with
  | aliasOf m => rfl
  | scalar anchor tag wish text => cases anchor <;> rfl
  | sequence anchor items =>
    cases anchor with
    | some m => rfl
    | none =>
      cases items with
      | nil => rfl
      | cons c rest => exact hplace (writeItems (n + 2) (c :: rest)) _ _ (by simp [writeItems])
  | mapping anchor tag entries =>
    cases anchor with
    | some m => rfl
    | none =>
      by_cases htag : tag = .map
      · subst htag
        cases entries with
        | nil => rfl
        | cons e rest => exact hplace (writeEntries (n + 2) (e :: rest)) _ _ (by simp [writeEntries])
      · simp [write, Content.anchorText, htag, isGap]

/-- A simple key and its colon. -/
theorem passes_simpleKey {key : String} (hkey : Content.IsKey key) (hsimple : Content.isSimpleKey key.toList = true)
    {i : Nat} (hi : 0 < i)
    (h : AtLine u (Form.scalar i true .str (Content.wishOf key) key.toList ++ ':' :: t) m kinds columns)
    (ht : isGap t = true) (hopen : Opens .blockMappingStart m u.indent kinds columns kinds' columns') :
    ∃ s, Passes u s ∧ Behind s t m false (.value :: Content.keyKind key :: .key :: kinds') columns' := by
  obtain ⟨hread, hshort⟩ := hkey
  have hlen := hshort hsimple
  rw [(Form.scalar_str i true _ _).1] at h
  rw [(Form.scalar_str 2 true _ _).1] at hlen
  unfold Content.keyKind
  rw [hsimple] at hread ⊢
  have hstyle := Form.styleFor_key true key
  generalize Form.styleFor true .str (Content.wishOf key) key.toList = style at h hlen hread hstyle ⊢
  have hbreak : Form.hasBreak key.toList = false := by
    simp only [Content.isSimpleKey, Bool.and_eq_true, Bool.not_eq_true'] at hsimple
    exact hsimple.1.2
  rw [Form.body_indent hstyle hbreak 2 i] at hlen
  have hflat := fun y hy => Form.isFlat_body hread hstyle.1 hbreak (i := i) (y := y) hy
  obtain ⟨x, w, hbody, -⟩ := Form.exists_body hread i
  have hword := h
  rw [hbody] at h hlen hflat
  have htoken : ∃ stop, u.token x =
      .ok (candidate u (.scalar (String.ofList key.toList) style) stop (x :: w).length) := by
    cases style with
    | plain =>
      change key.toList = x :: w at hbody
      rw [hbody] at hread ⊢
      exact token_plainKey h hread.1 hopen.indent_le ht
    | single =>
      obtain rfl : x = '\'' := (List.cons.inj hbody).1.symm
      refine ⟨_, Eq.trans ?_ (withText_key (fun c => (c.quoted false).map fun p =>
        (.scalar (String.ofList p.1) .single, p.2)) h ?_)⟩
      · simp [token, noMark_of_ne h.rest (by decide), Scan.quoted]
      · rw [Cursor.quoted_single hword.rest hread hi (by simp), hbody]
        rfl
    | double =>
      obtain rfl : x = '"' := (List.cons.inj hbody).1.symm
      refine ⟨_, Eq.trans ?_ (withText_key (fun c => (c.quoted true).map fun p =>
        (.scalar (String.ofList p.1) .double, p.2)) h ?_)⟩
      · simp [token, noMark_of_ne h.rest (by decide), Scan.quoted]
      · rw [Cursor.quoted_double hword.rest, hbody]
        rfl
    | literal => exact absurd rfl hstyle.1
    | folded => exact absurd rfl hstyle.2
  obtain ⟨stop, htoken⟩ := htoken
  rw [String.ofList_toList] at htoken
  exact passes_key h hflat hlen ht hopen htoken

/-- A key behind a question mark, and the colon on the next line. -/
theorem passes_complexKey {key : String} (hkey : Content.IsKey key) (hsimple : Content.isSimpleKey key.toList = false)
    (h : AtLine u ("? ".toList ++ Form.scalar (m + 2) false .str (Content.wishOf key) key.toList ++
      '\n' :: (spaces m ++ ':' :: t)) m kinds columns)
    (ht : isGap t = true) (hopen : Opens .blockMappingStart m u.indent kinds columns kinds' columns') :
    ∃ s, Passes u s ∧ Behind s t m true (.value :: Content.keyKind key :: .key :: kinds') columns' := by
  have hread := hkey.readable
  rw [(Form.scalar_str (m + 2) false _ _).1, List.append_assoc] at h
  unfold Content.keyKind
  rw [hsimple] at hread ⊢
  obtain ⟨s, hs, hbehind⟩ := turn_question h rfl hopen
  have hwithin : isWithin m columns' := ⟨s.indent, s.indents, hbehind.columns.symm, hbehind.indent.le⟩
  have hfollows : Follows m (':' :: t) := ⟨startsToken_cons (by decide) (by decide), fun _ => by simp [startsDocument]⟩
  obtain ⟨v, hv, hat⟩ := Inside.body [] hbehind.toInside hread (by omega) le_rfl (.none hfollows hwithin)
  rw [String.ofList_toList] at hat
  have hind : v.indent = m := by
    have := (List.cons.inj (hat.columns.trans hbehind.columns.symm)).1
    rw [this, hbehind.indent]
  obtain ⟨s', hs', hbehind'⟩ := turn_colon hat ht hind
  exact ⟨s', Passes.trans hs.passes hv hs'.passes, hbehind'⟩

/-- From behind a sign to the first entry of the collection it stands for. -/
theorem leads_place (sameLine : Bool) {entries : List (List Char)} (hne : entries ≠ [])
    (h : Inside s (Content.place (n + 2) sameLine entries ++ t) n kinds columns)
    (hsame : sameLine = true → s.cursor.column = n + 1 ∧ s.keyAllowed = true ∧ s.simpleKey = none)
    (hbody : StartsToken (joined (n + 2) entries ++ t)) :
    ∃ u, Leads s u ∧ AtLine u (joined (n + 2) entries ++ t) (n + 2) kinds columns ∧ u.indent = n := by
  rw [place_eq hne, List.append_assoc] at h
  generalize joined (n + 2) entries ++ t = body at h hbody ⊢
  have hindent : ∀ {u : Scan}, AtLine u body (n + 2) kinds columns → u.indent = n := fun hat =>
    (List.cons.inj (hat.columns.trans h.columns.symm)).1.trans h.indent
  have hdeep := h.deeper
  cases sameLine with
  | true =>
    obtain ⟨hcol, hallowed, hnone⟩ := hsame rfl
    obtain ⟨u, hu, hat, -, hcursor, -, hkeep, hkey⟩ := Inside.settle (r := body) h hbody
    rw [hcol] at hat
    have hline : AtLine u body (n + 2) kinds columns := ⟨hat, hkey hnone, hkeep.trans hallowed⟩
    exact ⟨u, .here hu ⟨1, hcursor⟩, hline, hindent hline⟩
  | false =>
    have hwithin : isWithin ((n + 2 : Nat) : Int) columns :=
      ⟨s.indent, s.indents, h.columns.symm, by rw [h.indent]; push_cast; omega⟩
    obtain ⟨u, hu, hat⟩ := leads_line [] (k := n + 2) (r := body) h.toAt h.idle hbody (by simp) hwithin
    exact ⟨u, hu, hat, hindent hat⟩

/-- The entries of a mapping begin with a key or with a question mark. -/
theorem follows_entries {key : String} (hkey : Content.IsKey key) (c : Content) (rest : List (String × Content))
    (m k : Nat) (t : List Char) : Follows k (joined m (writeEntries m ((key, c) :: rest)) ++ t) := by
  by_cases hsimple : Content.isSimpleKey key.toList = true
  · obtain ⟨x, w, hbody, hflat, hx, hstart⟩ := Form.exists_body hkey.readable (m + 2)
    rw [hsimple] at hbody
    have hjoined : ∃ t', joined m (writeEntries m ((key, c) :: rest)) ++ t = x :: w ++ ':' :: t' := by
      simp only [writeEntries, joined, if_pos hsimple]
      rw [(Form.scalar_str (m + 2) true _ _).1, hbody]
      exact ⟨write m false c ++ ((writeEntries m rest).flatMap (fun e => '\n' :: spaces m ++ e) ++ t),
        by simp only [List.append_assoc, List.cons_append]⟩
    obtain ⟨t', ht'⟩ := hjoined
    rw [ht']
    exact ⟨startsToken_cons hflat hx, fun _ => startsDocument_append hstart (by decide)⟩
  · have hjoined : ∃ t', joined m (writeEntries m ((key, c) :: rest)) ++ t = '?' :: ' ' :: t' := by
      simp only [writeEntries, joined, if_neg hsimple]
      exact ⟨_, rfl⟩
    obtain ⟨t', ht'⟩ := hjoined
    rw [ht']
    exact ⟨startsToken_cons (by decide) (by decide), fun _ => by simp [startsDocument]⟩

/-- From behind a sign to the first dash of a sequence. -/
theorem leads_firstItem (anchor : Option Nat) (c : Content) (rest : List Content) {sameLine : Bool}
    (h : Behind s (write n sameLine (.sequence anchor (c :: rest)) ++ t) n sameLine kinds columns) :
    ∃ u, Leads s u ∧ AtLine u (joined (n + 2) (writeItems (n + 2) (c :: rest)) ++ t) (n + 2)
      ((Content.anchorKinds anchor).reverse ++ kinds) columns ∧ u.indent = n := by
  have hne : writeItems (n + 2) (c :: rest) ≠ [] := by simp [writeItems]
  have hstart : StartsToken (joined (n + 2) (writeItems (n + 2) (c :: rest)) ++ t) :=
    startsToken_cons (x := '-') (by decide) (by decide)
  cases anchor with
  | none =>
    exact leads_place sameLine hne (by simpa [write, Content.anchorText, Content.anchorKinds] using h.toInside)
      (fun hs => ⟨(h.opens hs).1, (h.opens hs).2, h.noKey⟩) hstart
  | some m =>
    obtain ⟨s', hs', hin⟩ := Inside.anchorText (some m)
      (t := Content.place (n + 2) false (writeItems (n + 2) (c :: rest)) ++ t) (by simpa [write] using h.toInside)
      (by rw [place_eq hne]; rfl)
    obtain ⟨u, hu, hat, hind⟩ := leads_place _ hne hin (by simp) hstart
    exact ⟨u, hs' hu, hat, hind⟩

/-- From behind a sign to the first key of a mapping, which is on the next line if a property is written before it. -/
theorem leads_firstEntry (anchor : Option Nat) {tag : Tag} (htag : tag.isStandard = true) {key : String}
    (hkey : Content.IsKey key) (c : Content) (rest : List (String × Content)) {sameLine : Bool}
    (h : Behind s (write n sameLine (.mapping anchor tag ((key, c) :: rest)) ++ t) n sameLine kinds columns) :
    ∃ u, Leads s u ∧ AtLine u (joined (n + 2) (writeEntries (n + 2) ((key, c) :: rest)) ++ t) (n + 2)
      ((Content.anchorKinds anchor ++ if tag = .map then [] else [Content.tagKind tag]).reverse ++ kinds) columns ∧
      u.indent = n := by
  have hne : writeEntries (n + 2) ((key, c) :: rest) ≠ [] := by simp [writeEntries]
  have hstart := (follows_entries hkey c rest (n + 2) 0 t).toStartsToken
  by_cases hbare : anchor = none ∧ tag = .map
  · obtain ⟨rfl, rfl⟩ := hbare
    exact leads_place sameLine hne (by simpa [write, Content.anchorText, Content.anchorKinds] using h.toInside)
      (fun hs => ⟨(h.opens hs).1, (h.opens hs).2, h.noKey⟩) hstart
  · have hno : (sameLine && anchor.isNone &&
        (if tag = .map then [] else ' ' :: Form.tagText tag : List Char).isEmpty) = false := by
      cases anchor with
      | some _ => simp
      | none =>
        have : tag ≠ .map := fun he => hbare ⟨rfl, he⟩
        simp [this]
    have hin := h.toInside
    rw [write] at hin
    rw [hno] at hin
    obtain ⟨s', hs', hin'⟩ := Inside.properties anchor
      (t := Content.place (n + 2) false (writeEntries (n + 2) ((key, c) :: rest)) ++ t) htag (by simpa using hin)
      (by rw [place_eq hne]; rfl)
    obtain ⟨u, hu, hat, hind⟩ := leads_place _ hne hin' (by simp) hstart
    exact ⟨u, hs' hu, hat, hind⟩

/-- A key of either form and its colon. -/
theorem passes_entry {key : String} (hkey : Content.IsKey key) (c : Content)
    (h : AtLine u ((if Content.isSimpleKey key.toList then
        Form.scalar (m + 2) true .str (Content.wishOf key) key.toList ++ ':' :: write m false c
      else "? ".toList ++ Form.scalar (m + 2) false .str (Content.wishOf key) key.toList ++
        '\n' :: spaces m ++ ':' :: write m true c) ++ t) m kinds columns)
    (hopen : Opens .blockMappingStart m u.indent kinds columns kinds' columns') :
    ∃ s sameLine, Passes u s ∧
      Behind s (write m sameLine c ++ t) m sameLine (.value :: Content.keyKind key :: .key :: kinds') columns' := by
  by_cases hsimple : Content.isSimpleKey key.toList = true
  · rw [if_pos hsimple, List.append_assoc, List.cons_append] at h
    obtain ⟨s, hs, hbehind⟩ := passes_simpleKey hkey hsimple (by omega) h (isGap_write _ _ _ _) hopen
    exact ⟨s, false, hs, hbehind⟩
  · rw [if_neg hsimple] at h
    simp only [List.append_assoc, List.cons_append] at h
    rw [← List.append_assoc] at h
    obtain ⟨s, hs, hbehind⟩ := passes_complexKey hkey (by simpa using hsimple) h (isGap_write _ _ _ _) hopen
    exact ⟨s, true, hs, hbehind⟩

mutual

/-- The tokens of a content behind its sign. -/
theorem leads_write : ∀ (c : Content) (ds : List Int) {s : Scan} {n : Nat} {sameLine : Bool} {k : Nat} {r : List Char}
    {kinds : List TokenKind} {cs : List Int}, c.IsSound →
    Behind s (write n sameLine c ++ '\n' :: (spaces k ++ r)) n sameLine kinds (ds ++ cs) → k ≤ n →
    Closes k r ds cs →
    ∃ v, Leads s v ∧ AtLine v r k (List.replicate ds.length .blockEnd ++ (c.kinds.reverse ++ kinds)) cs
  | .aliasOf m, ds, s, n, sameLine, k, r, kinds, cs, _, h, hk, hc => by
    obtain ⟨v, hv, hat⟩ := Inside.alias h.toInside hc.follows.toStartsToken hc.deeper hc.within
    exact ⟨v, hv, hat⟩
  | .scalar anchor tag wish text, ds, s, n, sameLine, k, r, kinds, cs, hsound, h, hk, hc => by
    rw [write, List.append_assoc, List.cons_append] at h
    obtain ⟨s', hs', hin⟩ := h.toInside.anchorText anchor rfl
    obtain ⟨v, hv, hat⟩ := hin.scalar hsound.1 hsound.2 (by omega) hk hc
    refine ⟨v, hs' hv, ?_⟩
    simpa [Content.kinds] using hat
  | .sequence anchor [], ds, s, n, sameLine, k, r, kinds, cs, hsound, h, hk, hc => by
    obtain ⟨s', hs', hin⟩ := Inside.anchorText _ (t := " []".toList ++ '\n' :: (spaces k ++ r))
      (by simpa [write] using h.toInside) rfl
    obtain ⟨v, hv, hat⟩ := hin.brackets (x := '[') (y := ']') .flowSequenceStart
      .flowSequenceEnd (by decide) (by decide)
      (fun hu => by simp [token, noMark_of_ne hu (by decide)])
      (fun hu => by simp [token, noMark_of_ne hu (by decide)])
      hc.follows.toStartsToken hc.deeper hc.within
    refine ⟨v, hs' hv, ?_⟩
    simpa [Content.kinds] using hat
  | .sequence anchor (c :: rest), ds, s, n, sameLine, k, r, kinds, cs, hsound, h, hk, hc => by
    obtain ⟨u, hu, hat, hind⟩ := leads_firstItem anchor c rest (t := '\n' :: (spaces k ++ r)) h
    obtain ⟨v, hv, hatv⟩ := leads_writeItems (c :: rest) (((n + 2 : Nat) : Int) :: ds) (by simp) hsound hu hat
      (.first (by rw [hind]; push_cast; omega)) (by omega)
      ⟨hc.follows, by simpa using ⟨by omega, hc.deeper⟩, hc.within⟩
    refine ⟨v, hv, ?_⟩
    rw [List.length_cons, List.replicate_succ'] at hatv
    simpa [Content.kinds] using hatv
  | .mapping anchor tag [], ds, s, n, sameLine, k, r, kinds, cs, hsound, h, hk, hc => by
    obtain ⟨s', hs', hin⟩ := Inside.properties anchor (t := " \x7b\x7d".toList ++ '\n' :: (spaces k ++ r))
      hsound.1 (by simpa [write] using h.toInside) rfl
    obtain ⟨v, hv, hat⟩ := hin.brackets (x := '\x7b') (y := '\x7d') .flowMappingStart
      .flowMappingEnd (by decide) (by decide)
      (fun hu => by simp [token, noMark_of_ne hu (by decide)])
      (fun hu => by simp [token, noMark_of_ne hu (by decide)])
      hc.follows.toStartsToken hc.deeper hc.within
    refine ⟨v, hs' hv, ?_⟩
    simpa [Content.kinds] using hat
  | .mapping anchor tag ((key, c) :: rest), ds, s, n, sameLine, k, r, kinds, cs, hsound, h, hk, hc => by
    obtain ⟨u, hu, hat, hind⟩ := leads_firstEntry anchor hsound.1 hsound.2.1 c rest (t := '\n' :: (spaces k ++ r)) h
    obtain ⟨v, hv, hatv⟩ := leads_writeEntries ((key, c) :: rest) (((n + 2 : Nat) : Int) :: ds) (by simp) hsound.2
      hu hat (.first (by rw [hind]; push_cast; omega)) (by omega)
      ⟨hc.follows, by simpa using ⟨by omega, hc.deeper⟩, hc.within⟩
    refine ⟨v, hv, ?_⟩
    rw [List.length_cons, List.replicate_succ'] at hatv
    simpa [Content.kinds] using hatv

/-- The tokens of the items of a sequence, from in front of the first dash. -/
theorem leads_writeItems : ∀ (items : List Content) (ds : List Int) {s u : Scan} {m k : Nat} {r : List Char}
    {kinds kinds' : List TokenKind} {columns cs : List Int}, items ≠ [] → Content.AreSound items → Leads s u →
    AtLine u (joined m (writeItems m items) ++ '\n' :: (spaces k ++ r)) m kinds columns →
    Opens .blockSequenceStart m u.indent kinds columns kinds' (ds ++ cs) → k ≤ m → Closes k r ds cs →
    ∃ v, Leads s v ∧ AtLine v r k
      (List.replicate ds.length .blockEnd ++ ((Content.itemKinds items).reverse ++ kinds')) cs
  | [], _, _, _, _, _, _, _, _, _, _, hne, _, _, _, _, _, _ => absurd rfl hne
  | [c], ds, s, u, m, k, r, kinds, kinds', columns, cs, _, hsound, hlead, h, hopen, hk, hc => by
    obtain ⟨s', hs', hbehind⟩ := turn_dash (t := write m true c ++ '\n' :: (spaces k ++ r))
      (by simpa [joined, writeItems] using h) (isGap_write _ _ _ _) hopen
    obtain ⟨v, hv, hat⟩ := leads_write c ds hsound.1 hbehind hk hc
    refine ⟨v, hs'.passes hlead hv, ?_⟩
    simpa [Content.itemKinds] using hat
  | c :: c' :: rest, ds, s, u, m, k, r, kinds, kinds', columns, cs, _, hsound, hlead, h, hopen, hk, hc => by
    have hfollows : Follows m (joined m (writeItems m (c' :: rest)) ++ '\n' :: (spaces k ++ r)) := by
      obtain ⟨d, t', ht', hd⟩ := exists_of_isGap (isGap_write m true c'
        (((writeItems m rest).flatMap fun e => '\n' :: spaces m ++ e) ++ '\n' :: (spaces k ++ r)))
      have hjoined : joined m (writeItems m (c' :: rest)) ++ '\n' :: (spaces k ++ r) = '-' :: d :: t' := by
        rw [← ht']
        simp [joined, writeItems]
      rw [hjoined]
      refine ⟨startsToken_cons (by decide) (by decide), fun _ => ?_⟩
      rcases hd with rfl | rfl <;> simp [startsDocument]
    obtain ⟨s', hs', hbehind⟩ := turn_dash (t := write m true c ++
        '\n' :: (spaces m ++ (joined m (writeItems m (c' :: rest)) ++ '\n' :: (spaces k ++ r))))
      (by simpa [joined_cons, writeItems] using h) (isGap_write _ _ _ _) hopen
    have hwithin : isWithin m (ds ++ cs) := ⟨s'.indent, s'.indents, hbehind.columns.symm, hbehind.indent.le⟩
    obtain ⟨v, hv, hat⟩ := leads_write c [] hsound.1 hbehind le_rfl (.none hfollows hwithin)
    have hind : v.indent = m :=
      (List.cons.inj (hat.columns.trans hbehind.columns.symm)).1.trans hbehind.indent
    obtain ⟨z, hz, hatz⟩ :=
      leads_writeItems (c' :: rest) ds (by simp) hsound.2 (hs'.passes hlead hv) hat (.next hind) hk hc
    refine ⟨z, hz, ?_⟩
    simpa [Content.itemKinds] using hatz

/-- The tokens of the entries of a mapping, from in front of the first key. -/
theorem leads_writeEntries :
    ∀ (entries : List (String × Content)) (ds : List Int) {s u : Scan} {m k : Nat} {r : List Char}
    {kinds kinds' : List TokenKind} {columns cs : List Int}, entries ≠ [] → Content.EntriesAreSound entries →
    Leads s u → AtLine u (joined m (writeEntries m entries) ++ '\n' :: (spaces k ++ r)) m kinds columns →
    Opens .blockMappingStart m u.indent kinds columns kinds' (ds ++ cs) → k ≤ m → Closes k r ds cs →
    ∃ v, Leads s v ∧ AtLine v r k
      (List.replicate ds.length .blockEnd ++ ((Content.entryKinds entries).reverse ++ kinds')) cs
  | [], _, _, _, _, _, _, _, _, _, _, hne, _, _, _, _, _, _ => absurd rfl hne
  | [(key, c)], ds, s, u, m, k, r, kinds, kinds', columns, cs, _, hsound, hlead, h, hopen, hk, hc => by
    obtain ⟨s', sameLine, hs', hbehind⟩ := passes_entry (t := '\n' :: (spaces k ++ r)) hsound.1 c
      (by simpa [joined, writeEntries] using h) hopen
    obtain ⟨v, hv, hat⟩ := leads_write c ds hsound.2.1 hbehind hk hc
    refine ⟨v, hs' hlead hv, ?_⟩
    simpa [Content.entryKinds] using hat
  | (key, c) :: (key', c') :: rest, ds, s, u, m, k, r, kinds, kinds', columns, cs, _, hsound, hlead, h, hopen, hk,
    hc => by
    have hfollows := follows_entries hsound.2.2.1 c' rest m m ('\n' :: (spaces k ++ r))
    obtain ⟨s', sameLine, hs', hbehind⟩ := passes_entry
      (t := '\n' :: (spaces m ++ (joined m (writeEntries m ((key', c') :: rest)) ++ '\n' :: (spaces k ++ r))))
      hsound.1 c (by simpa [joined_cons, writeEntries] using h) hopen
    have hwithin : isWithin m (ds ++ cs) := ⟨s'.indent, s'.indents, hbehind.columns.symm, hbehind.indent.le⟩
    obtain ⟨v, hv, hat⟩ := leads_write c [] hsound.2.1 hbehind le_rfl (.none hfollows hwithin)
    have hind : v.indent = m :=
      (List.cons.inj (hat.columns.trans hbehind.columns.symm)).1.trans hbehind.indent
    obtain ⟨z, hz, hatz⟩ := leads_writeEntries ((key', c') :: rest) ds (by simp) hsound.2.2 (hs' hlead hv) hat
      (.next hind) hk hc
    refine ⟨z, hz, ?_⟩
    simpa [Content.entryKinds] using hatz

end

end NoteVault.Yaml.Scan
