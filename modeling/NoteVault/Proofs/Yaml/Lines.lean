import NoteVault.Proofs.Text.Digits
import NoteVault.Proofs.Text.Lines
import NoteVault.Yaml.Block

/-!
The lines that are written for contents. Whatever the contents are, a line either does not begin with
a dash, or holds a colon or a question mark; and the first line is of the last kind.
-/
namespace NoteVault.Yaml

open Text (hangs hangs_append hangs_of_not_mem hangs_indented hangs_flatMap fields)

namespace Form

theorem isBare_of_mem_upperHex {w n : Nat} {c : Char} (h : c ∈ upperHex w n) : isBare c = true := by
  simp only [upperHex, Text.hex, List.mem_map, List.mem_append] at h
  obtain ⟨a, ha | ha, rfl⟩ := h
  · rw [(List.mem_replicate.1 ha).2]; decide
  · obtain ⟨d, hd, rfl⟩ := Text.exists_digit_of_mem_toDigits (by decide) ha
    exact (by decide : ∀ d < 16, isBare (Nat.digitChar d).toUpper = true) d hd

/-- Between double quotes stand bare characters, and quotes and backslashes behind backslashes. -/
theorem mem_doubleChar {c y : Char} (h : y ∈ doubleChar c) : isBare y = true ∨ y = '\\' ∨ y = '"' := by
  unfold doubleChar at h
  split at h
  next hbare => exact .inl (List.mem_singleton.1 h ▸ hbare)
  next =>
    split at h
    next letter hl =>
      have hm : ∀ e ∈ escapeLetters, isBare e.2 = true ∨ e.2 = '\\' ∨ e.2 = '"' := by decide
      rw [List.lookup_eq_some_iff] at hl
      obtain ⟨l₁, l₂, hl, -⟩ := hl
      rcases List.mem_cons.1 h with rfl | h
      · exact .inr (.inl rfl)
      · rw [List.mem_singleton.1 h]
        exact hm (c, letter) (by simp [hl])
    next =>
      dsimp only at h
      split at h <;> [skip; split at h]
      all_goals
        simp only [List.mem_cons] at h
        rcases h with rfl | rfl | h
        exacts [.inr (.inl rfl), .inl (by decide), .inl (isBare_of_mem_upperHex h)]

theorem break_not_mem_doubleChar (c : Char) : '\n' ∉ doubleChar c := fun h =>
  absurd (mem_doubleChar h) (by decide)

theorem hangs_singleBody (n : Nat) (s : List Char) (b b' : Bool) (h : b' = true → b = true) :
    hangs b' (singleBody (n + 1) b s ++ ['\'']) = true := by
  have lead : ∀ (b b' : Bool) (t : List Char), (b' = true → b = true) → hangs false t = true →
      hangs b' ((if b then spaces (n + 1) else []) ++ t) = true := by
    intro b b' t h ht
    cases b with
    | false => cases b' <;> simp_all
    | true => exact hangs_append (Text.hangs_blanks b' n) ht
  induction s generalizing b b' with
  | nil => exact lead b b' ['\''] h (by decide)
  | cons c rest ih =>
    unfold singleBody
    by_cases hc : isBreak c
    · have hd : c ≠ '-' := by rintro rfl; exact absurd hc (by decide)
      have hr := ih true (c = '\n') (by simp)
      rw [if_pos hc]
      by_cases hn : !b && c = '\n'
      · obtain ⟨hb, rfl⟩ : b = false ∧ c = '\n' := by simpa using hn
        subst hb
        simpa [hangs] using hr
      · rw [if_neg hn]
        simpa [hangs, hd] using hr
    · have hn : c ≠ '\n' := by rintro rfl; exact absurd (by decide) hc
      rw [if_neg hc, List.append_assoc, List.append_assoc]
      refine lead b b' _ h (hangs_append ?_ (ih false false (by simp)))
      split
      · decide
      · exact hangs_of_not_mem (by simpa using fun he => hn he.symm)

theorem break_not_mem_of_allowsPlain {s : List Char} (h : allowsPlain s = true) : '\n' ∉ s := by
  simp only [allowsPlain, hasBreak, Bool.and_eq_true, Bool.not_eq_true', List.any_eq_false] at h
  exact fun hm => h.1.1.1.1.2 _ hm (by decide)

theorem style_eq_plain {wish : Option Style} {readsBack asKey : Bool} {s : List Char}
    (h : style wish readsBack asKey s = .plain) : readsBack = true ∧ allowsPlain s = true := by
  unfold style at h
  repeat' split at h
  all_goals simp_all

theorem style_eq_folded {wish : Option Style} {readsBack asKey : Bool} {s : List Char} :
    style wish readsBack asKey s ≠ .folded := by
  unfold style
  repeat' split
  all_goals simp

/-- The lines of a text in the style that is chosen for it. -/
theorem hangs_body (n : Nat) {wish : Option Style} {readsBack asKey : Bool} (s : List Char) :
    hangs false (body (n + 1) (style wish readsBack asKey s) s) = true := by
  cases hs : style wish readsBack asKey s with
  | plain => exact hangs_of_not_mem (break_not_mem_of_allowsPlain (style_eq_plain hs).2)
  | single => simpa [body, hangs] using hangs_singleBody n s false false id
  | double =>
    refine hangs_of_not_mem ?_
    have hd : '\n' ∉ s.flatMap doubleChar := by
      simpa using fun c _ => break_not_mem_doubleChar c
    simpa [body] using hd
  | literal =>
    have hl : hangs false ((fields '\n' s).flatMap fun line =>
        if line.isEmpty then [] else '\n' :: spaces (n + 1) ++ line) = true := by
      refine hangs_flatMap fun line hm => ?_
      split
      · rfl
      · exact hangs_indented n (hangs_of_not_mem (Text.not_mem_of_mem_fields hm))
    simpa [body, hangs] using hl
  | folded => exact absurd hs style_eq_folded

end Form

/-- The tag is one of the standard types. -/
def Tag.isStandard : Tag → Bool
  | .other _ => false
  | _ => true

theorem Form.break_not_mem_tagText {tag : Tag} (h : tag.isStandard = true) : '\n' ∉ Form.tagText tag := by
  cases tag with
  | other text => exact absurd h (by simp [Tag.isStandard])
  | _ => decide

theorem Form.hangs_scalar (n : Nat) (asKey : Bool) {tag : Tag} (h : tag.isStandard = true)
    (wish : Option Style) (s : List Char) : hangs false (Form.scalar (n + 1) asKey tag wish s) = true := by
  unfold Form.scalar
  refine hangs_append ?_ (hangs_body n s)
  split
  · exact hangs_append (hangs_of_not_mem (Form.break_not_mem_tagText h)) (by decide)
  · rfl

namespace Content

mutual

/-- Every tag in the content is one of the standard types. -/
def isStandard : Content → Bool
  | aliasOf _ => true
  | scalar _ tag _ _ => tag.isStandard
  | sequence _ items => areStandard items
  | mapping _ tag entries => tag.isStandard && entriesAreStandard entries

def areStandard : List Content → Bool
  | [] => true
  | c :: rest => c.isStandard && areStandard rest

def entriesAreStandard : List (String × Content) → Bool
  | [] => true
  | (_, c) :: rest => c.isStandard && entriesAreStandard rest

end

theorem break_not_mem_anchorName (n : Nat) : '\n' ∉ anchorName n := by
  simp only [anchorName, List.mem_append, List.mem_replicate, not_or]
  refine ⟨⟨by decide, by simp⟩, fun hm => ?_⟩
  obtain ⟨d, hd, he⟩ := Text.exists_digit_of_mem_toDigits (by decide) hm
  exact (by decide : ∀ d < 10, '\n' ≠ Nat.digitChar d) d hd he

theorem hangs_anchorText (anchor : Option Nat) : hangs false (anchorText anchor) = true := by
  cases anchor with
  | none => rfl
  | some n => exact hangs_append (s := " &".toList) (by decide) (hangs_of_not_mem (break_not_mem_anchorName n))

theorem hangs_place (n : Nat) (sameLine : Bool) (entries : List (List Char))
    (h : ∀ e ∈ entries, hangs false e = true) : hangs false (place (n + 1) sameLine entries) = true := by
  cases entries with
  | nil => rfl
  | cons first rest =>
    unfold place
    refine hangs_append (hangs_append ?_ (h first (by simp))) (hangs_flatMap fun e he => ?_)
    · split
      · decide
      · simpa [Form.spaces] using hangs_indented n (s := []) rfl
    · exact hangs_indented n (h e (by simp [he]))

theorem hangs_key (n : Nat) (asKey : Bool) (k : String) :
    hangs false (Form.scalar (n + 1) asKey .str (wishOf k) k.toList) = true :=
  Form.hangs_scalar n asKey rfl _ _

mutual

/-- No line that is written for a content begins with a dash. -/
theorem hangs_write : ∀ (c : Content) (n : Nat) (sameLine : Bool), c.isStandard = true →
    hangs false (write n sameLine c) = true
  | aliasOf m, n, sameLine, _ => by
    exact hangs_append (s := " *".toList) (by decide) (hangs_of_not_mem (break_not_mem_anchorName m))
  | scalar anchor tag wish text, n, sameLine, h => by
    refine hangs_append (hangs_anchorText anchor) ?_
    simpa [hangs] using Form.hangs_scalar (n + 1) false h wish text
  | sequence anchor items, n, sameLine, h => by
    refine hangs_append (hangs_anchorText anchor) ?_
    split
    · decide
    · exact hangs_place (n + 1) _ _ (hangs_writeItems items (n + 2) h)
  | mapping anchor tag entries, n, sameLine, h => by
    simp only [isStandard, Bool.and_eq_true] at h
    refine hangs_append (hangs_append (hangs_anchorText anchor) ?_) ?_
    · split
      · rfl
      · simpa [hangs] using hangs_of_not_mem (Form.break_not_mem_tagText h.1)
    · split
      · decide
      · exact hangs_place (n + 1) _ _ (hangs_writeEntries entries (n + 2) (by omega) h.2)

theorem hangs_writeItems : ∀ (items : List Content) (n : Nat), areStandard items = true →
    ∀ e ∈ writeItems n items, hangs false e = true
  | [], _, _, e, he => absurd he (by simp [writeItems])
  | c :: rest, n, h, e, he => by
    simp only [areStandard, Bool.and_eq_true] at h
    rw [writeItems, List.mem_cons] at he
    obtain rfl | he := he
    · simpa [hangs] using hangs_write c n true h.1
    · exact hangs_writeItems rest n h.2 e he

theorem hangs_writeEntries : ∀ (entries : List (String × Content)) (n : Nat), 0 < n →
    entriesAreStandard entries = true → ∀ e ∈ writeEntries n entries, hangs false e = true
  | [], _, _, _, e, he => absurd he (by simp [writeEntries])
  | (k, c) :: rest, n, hn, h, e, he => by
    simp only [entriesAreStandard, Bool.and_eq_true] at h
    rw [writeEntries, List.mem_cons] at he
    obtain rfl | he := he
    · obtain ⟨n, rfl⟩ : ∃ m, n = m + 1 := ⟨n - 1, by omega⟩
      dsimp only
      split
      · refine hangs_append (hangs_key _ true k) ?_
        simpa [hangs] using hangs_write c (n + 1) false h.1
      · have hk := hangs_append (b := false) (s := "? ".toList) (by decide) (hangs_key (n + 2) false k)
        have hv : hangs false (':' :: write (n + 1) true c) = true := by
          simpa [hangs] using hangs_write c (n + 1) true h.1
        simpa [Form.spaces] using hangs_append hk (hangs_indented n hv)
    · exact hangs_writeEntries rest n hn h.2 e he

end

/-- A colon or a question mark stands in the line. -/
def IsMarked (line : List Char) : Prop := ':' ∈ line ∨ '?' ∈ line

theorem break_not_mem_singleBody {n : Nat} {s : List Char} (h : ∀ c ∈ s, Form.isBreak c = false) :
    '\n' ∉ Form.singleBody n false s := by
  induction s with
  | nil => simp [Form.singleBody]
  | cons c rest ih =>
    have hc := h c (by simp)
    have hr := ih fun d hd => h d (List.mem_cons_of_mem _ hd)
    have hne : '\n' ≠ c := by rintro rfl; exact absurd hc (by decide)
    unfold Form.singleBody
    rw [if_neg (by simp [hc]), if_neg (by simp)]
    split <;> simp [hr, hne]

theorem break_not_mem_simpleKey {k : String} (h : isSimpleKey k.toList = true) (n : Nat) :
    '\n' ∉ Form.scalar n true .str (wishOf k) k.toList := by
  have hb : ∀ c ∈ k.toList, Form.isBreak c = false := by
    simp only [isSimpleKey, Form.hasBreak, Bool.and_eq_true, Bool.not_eq_true', List.any_eq_false] at h
    exact fun c hc => by simpa using h.1.2 c hc
  have htag : ∀ b : Bool, '\n' ∉ (if b then Form.tagText .str ++ [' '] else []) := by decide
  have hbody : '\n' ∉ Form.body n (Form.style (wishOf k) (Tag.ofPlain (String.ofList k.toList) = .str) true
      k.toList) k.toList := by
    cases hs : Form.style (wishOf k) (Tag.ofPlain (String.ofList k.toList) = .str) true k.toList with
    | plain => exact fun hm => absurd (hb _ hm) (by decide)
    | single => simpa [Form.body] using break_not_mem_singleBody (n := n) hb
    | double => simpa [Form.body] using fun c _ => Form.break_not_mem_doubleChar c
    | literal =>
      unfold Form.style wishOf at hs
      repeat' split at hs
      all_goals simp_all
    | folded => exact absurd hs Form.style_eq_folded
  exact fun hm => (List.mem_append.1 hm).elim (htag _) hbody

/-- The first line is marked, and every line is marked or does not begin with a dash. -/
structure HasKeyLines (s : List Char) : Prop where
  first_marked : IsMarked (s.takeWhile (· ≠ '\n'))
  marked_or_no_dash : ∀ line ∈ fields '\n' s, IsMarked line ∨ line.head? ≠ some '-'

theorem HasKeyLines.of_hangs {s : List Char} (h : hangs false s = true)
    (hm : IsMarked (s.takeWhile (· ≠ '\n'))) : HasKeyLines s where
  first_marked := hm
  marked_or_no_dash line hl := by
    rw [Text.fields_eq_cons, List.mem_cons] at hl
    obtain rfl | hl := hl
    · exact .inl hm
    · exact .inr (Text.head?_of_mem_tail_fields h (.inl hl))

theorem HasKeyLines.append {s t : List Char} (hs : HasKeyLines s) (ht : HasKeyLines t) :
    HasKeyLines (s ++ '\n' :: t) where
  first_marked := by
    rw [Text.takeWhile_append_sep]
    exact hs.first_marked
  marked_or_no_dash line hl := by
    rw [Text.fields_append_sep, List.mem_append] at hl
    exact hl.elim (hs.marked_or_no_dash line) (ht.marked_or_no_dash line)

theorem hasKeyLines_writeEntries : ∀ (entries : List (String × Content)),
    entriesAreStandard entries = true → ∀ e ∈ writeEntries 0 entries, HasKeyLines e
  | [], _, e, he => absurd he (by simp [writeEntries])
  | (k, c) :: rest, h, e, he => by
    simp only [entriesAreStandard, Bool.and_eq_true] at h
    rw [writeEntries, List.mem_cons] at he
    obtain rfl | he := he
    · dsimp only
      split
      next hk =>
        have hv : hangs false (':' :: write 0 false c) = true := by
          simpa [hangs] using hangs_write c 0 false h.1
        refine .of_hangs (hangs_append (hangs_key 1 true k) hv) ?_
        rw [Text.takeWhile_append_of_not_mem (break_not_mem_simpleKey hk 2)]
        simp [IsMarked]
      next hk =>
        have hq : HasKeyLines ("? ".toList ++ Form.scalar 2 false .str (wishOf k) k.toList) := by
          refine .of_hangs (hangs_append (by decide) (hangs_key 1 false k)) ?_
          rw [Text.takeWhile_append_of_not_mem (by decide)]
          exact .inr (by simp)
        have hv : HasKeyLines (':' :: write 0 true c) := by
          refine .of_hangs (by simpa [hangs] using hangs_write c 0 true h.1) ?_
          simp [IsMarked]
        simpa [Form.spaces] using hq.append hv
    · exact hasKeyLines_writeEntries rest h.2 e he

/-- The lines of a whole header. -/
theorem hasKeyLines_writeAll {entries : List (String × Content)} (h : entriesAreStandard entries = true)
    (hne : entries ≠ []) : HasKeyLines (writeAll entries) := by
  have hall := hasKeyLines_writeEntries entries h
  unfold writeAll
  cases hw : writeEntries 0 entries with
  | nil =>
    cases entries with
    | nil => exact absurd rfl hne
    | cons e rest => simp [writeEntries] at hw
  | cons first rest =>
    rw [hw] at hall
    have hf := hall first (by simp)
    have hr : ∀ e ∈ rest, HasKeyLines e := fun e he => hall e (List.mem_cons_of_mem _ he)
    clear hw hall
    induction rest generalizing first with
    | nil => simpa using hf
    | cons e rest ih =>
      have := ih (first ++ '\n' :: e) (hf.append (hr e (by simp))) fun d hd => hr d (by simp [hd])
      simpa using this

end Content
end NoteVault.Yaml
