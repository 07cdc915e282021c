import NoteVault.Proofs.Yaml.Restores.Integer

/-!
Texts of printable ASCII characters and line feeds: as keys they are read back, and what is written for
them neither begins nor ends with white space.
-/
namespace NoteVault.Yaml

/-- Printable ASCII characters and line feeds. -/
def isPrintable (c : Char) : Bool := c = '\n' || (32 ≤ c.toNat && c.toNat ≤ 126)

theorem toNat_lt_of_isPrintable {c : Char} (h : isPrintable c = true) : c.toNat < 128 := by
  simp only [isPrintable, Bool.or_eq_true, Bool.and_eq_true, decide_eq_true_eq] at h
  obtain rfl | h := h
  · decide
  · omega

theorem isPrintable_of_isNumeral {c : Char} (h : isNumeral c = true) : isPrintable c = true := by
  have := of_ascii (p := fun c => !isNumeral c || isPrintable c) (toNat_lt_of_isNumeral h) (by decide)
  simpa [h] using this

/-- A printable character that neither ends a line nor is a space is no white space. -/
theorem isPrintable_class {c : Char} (h : isPrintable c = true) (hbreak : Form.isBreak c = false) (hspace : c ≠ ' ') :
    Text.isBlank c = false := by
  have := of_ascii (p := fun c => !isPrintable c || Form.isBreak c || c = ' ' || !Text.isBlank c)
    (toNat_lt_of_isPrintable h) (by decide)
  simpa [h, hbreak, hspace] using this

theorem length_doubleChar {c : Char} (h : isPrintable c = true) : (Form.doubleChar c).length ≤ 2 := by
  have := of_ascii (p := fun c => !isPrintable c || (Form.doubleChar c).length ≤ 2)
    (toNat_lt_of_isPrintable h) (by decide)
  simpa [h] using this

theorem isKept_of_printable (asKey : Bool) {s : String} (h : ∀ c ∈ s.toList, isPrintable c = true) : IsKept asKey s :=
  fun _ hmem => absurd (h _ hmem) (by decide)

/-- On one line a printable text is written with at most twice its characters and two quotes. -/
theorem length_body_printable {style : Style} {text : List Char} (h : ∀ c ∈ text, isPrintable c = true)
    (hline : Form.hasBreak text = false) (hstyle : style ≠ .literal ∧ style ≠ .folded) (i : Nat) :
    (Form.body i style text).length ≤ 2 * text.length + 2 := by
  cases style with
  | plain => simp only [Form.body]; omega
  | single =>
    have hsingle : ∀ {text : List Char}, Form.hasBreak text = false →
        (Form.singleBody i false text).length ≤ 2 * text.length := by
      intro text hline
      induction text with
      | nil => simp [Form.singleBody]
      | cons c text ih =>
        simp only [Form.hasBreak, List.any_cons, Bool.or_eq_false_iff] at hline
        have := ih hline.2
        simp only [Form.singleBody, hline.1, Bool.false_eq_true, if_false, List.nil_append, List.length_append,
          List.length_cons]
        split <;> simp only [List.length_cons, List.length_nil] <;> omega
    have := hsingle hline
    simp only [Form.body, List.cons_append, List.length_cons, List.length_append, List.length_nil]
    omega
  | double =>
    have hdouble : (text.flatMap Form.doubleChar).length ≤ 2 * text.length := by
      clear hline
      induction text with
      | nil => simp
      | cons c text ih =>
        have hc := length_doubleChar (h c (by simp))
        have := ih fun d hd => h d (List.mem_cons_of_mem _ hd)
        simp only [List.flatMap_cons, List.length_append, List.length_cons]
        omega
    simp only [Form.body, List.cons_append, List.length_cons, List.length_append, List.length_nil]
    omega
  | literal => exact absurd rfl hstyle.1
  | folded => exact absurd rfl hstyle.2

theorem isKey_of_printable {k : String} (h : ∀ c ∈ k.toList, isPrintable c = true) : Content.IsKey k where
  readable := isReadable_str (isKept_of_printable _ h)
  short hsimple := by
    simp only [Content.isSimpleKey, Bool.and_eq_true, Bool.not_eq_true', decide_eq_true_eq] at hsimple
    rw [(Form.scalar_str 2 true _ _).1]
    have := length_body_printable h hsimple.1.2 (Form.styleFor_key true k) 2
    omega

/-- The text ends with a character that is no white space. -/
def EndsDark (s : List Char) : Prop := ∃ t c, s = t ++ [c] ∧ Text.isBlank c = false

theorem EndsDark.append {s : List Char} (h : EndsDark s) (r : List Char) : EndsDark (r ++ s) := by
  obtain ⟨t, c, rfl, hc⟩ := h
  exact ⟨r ++ t, c, (List.append_assoc ..).symm, hc⟩

theorem EndsDark.cons {s : List Char} (h : EndsDark s) (d : Char) : EndsDark (d :: s) := h.append [d]

theorem endsDark_body {style : Style} {text : List Char} (hread : Form.IsReadable style text)
    (h : ∀ c ∈ text, isPrintable c = true) (hstyle : style ≠ .literal ∧ style ≠ .folded) (i : Nat) :
    EndsDark (Form.body i style text) := by
  cases style with
  | plain =>
    obtain ⟨hplain, hne⟩ := hread
    simp only [Form.allowsPlain, Form.hasBreak, Bool.and_eq_true, Bool.not_eq_true', List.any_eq_false] at hplain
    refine ⟨text.dropLast, text.getLast hne, (List.dropLast_concat_getLast hne).symm,
      isPrintable_class (h _ (List.getLast_mem hne)) (by simpa using hplain.1.1.1.1.2 _ (List.getLast_mem hne)) ?_⟩
    have := hplain.1.1.2
    rw [List.getLast?_eq_some_getLast hne] at this
    simpa [Form.isBlank] using this
  | single => exact ⟨'\'' :: Form.singleBody i false text, '\'', rfl, by decide⟩
  | double => exact ⟨'"' :: text.flatMap Form.doubleChar, '"', rfl, by decide⟩
  | literal => exact absurd rfl hstyle.1
  | folded => exact absurd rfl hstyle.2

theorem endsDark_scalar {tag : Tag} {wish : Option Style} {text : List Char}
    (hread : Form.IsReadable (Form.styleFor false tag wish text) text) (h : ∀ c ∈ text, isPrintable c = true)
    (hwish : wish ≠ some .literal) (i : Nat) : EndsDark (Form.scalar i false tag wish text) := by
  have hstyle : Form.styleFor false tag wish text ≠ .literal := by
    unfold Form.styleFor Form.style
    split
    · simp
    next => exact absurd rfl hwish
    · split <;> [simp; split <;> simp]
  exact (endsDark_body hread h ⟨hstyle, Form.style_eq_folded⟩ i).append _

theorem endsDark_lines {first : List Char} {rest : List (List Char)} {f : List Char → List Char}
    (hf : ∀ e, EndsDark e → EndsDark (f e)) (h : ∀ e ∈ first :: rest, EndsDark e) :
      EndsDark (first ++ rest.flatMap f) := by
  obtain rfl | ⟨more, last, rfl⟩ := List.eq_nil_or_concat rest
  · simpa using h first (by simp)
  · rw [List.concat_eq_append, List.flatMap_append, ← List.append_assoc]
    refine EndsDark.append ?_ _
    simpa using hf last (h last (by simp))

theorem endsDark_place {m : Nat} {sameLine : Bool} {entries : List (List Char)} (hne : entries ≠ [])
    (h : ∀ e ∈ entries, EndsDark e) : EndsDark (Content.place m sameLine entries) := by
  cases entries with
  | nil => exact absurd rfl hne
  | cons e rest =>
    rw [Content.place, List.append_assoc]
    exact (endsDark_lines (fun e he => (he.append (Form.spaces m)).cons '\n') h).append _

theorem endsDark_writeAll {entries : List (String × Content)} (hne : entries ≠ [])
    (h : ∀ e ∈ Content.writeEntries 0 entries, EndsDark e) : EndsDark (Content.writeAll entries) := by
  obtain ⟨e, rest, rfl⟩ := List.exists_cons_of_ne_nil hne
  exact endsDark_lines (fun e he => he.cons '\n') h

/-- The text begins with a character that is no white space. -/
def StartsDark (s : List Char) : Prop := ∃ c t, s = c :: t ∧ Text.isBlank c = false

theorem startsDark_key {k : String} (h : ∀ c ∈ k.toList, isPrintable c = true) {asKey : Bool} (i : Nat) :
    StartsDark (Form.scalar i asKey .str (Content.wishOf k) k.toList) := by
  rw [(Form.scalar_str i asKey _ _).1]
  have hread := isReadable_str (isKept_of_printable asKey h)
  have hstyle := Form.styleFor_key asKey k
  cases hs : Form.styleFor asKey .str (Content.wishOf k) k.toList with
  | plain =>
    rw [hs] at hread
    obtain ⟨hplain, hne⟩ := hread
    simp only [Form.allowsPlain, Form.hasBreak, Bool.and_eq_true, Bool.not_eq_true', List.any_eq_false] at hplain
    obtain ⟨c, t, hk⟩ := List.exists_cons_of_ne_nil hne
    refine ⟨c, t, hk, isPrintable_class (h c (by simp [hk])) (by simpa using hplain.1.1.1.1.2 c (by simp [hk])) ?_⟩
    have := hplain.1.1.1.2
    rw [hk] at this
    simpa [Form.isBlank] using this
  | single => exact ⟨_, _, rfl, by decide⟩
  | double => exact ⟨_, _, rfl, by decide⟩
  | literal => exact absurd hs hstyle.1
  | folded => exact absurd hs hstyle.2

theorem StartsDark.append {s : List Char} (h : StartsDark s) (r : List Char) : StartsDark (s ++ r) := by
  obtain ⟨c, t, rfl, hc⟩ := h
  exact ⟨c, t ++ r, rfl, hc⟩

theorem startsDark_writeAll {k : String} (h : ∀ c ∈ k.toList, isPrintable c = true) (c : Content)
    (rest : List (String × Content)) : StartsDark (Content.writeAll ((k, c) :: rest)) := by
  refine StartsDark.append ?_ _
  dsimp only
  split
  · exact (startsDark_key h _).append _
  · exact ⟨'?', _, rfl, by decide⟩

/-- Nothing is trimmed from a text without white space at its ends. -/
theorem trimBy_of_dark {s : List Char} (hstart : StartsDark s) (hend : EndsDark s) :
    Text.trimBy Text.isBlank s = s := by
  apply Text.trimBy_eq_self
  · intro c hc
    obtain ⟨d, t, rfl, hdark⟩ := hstart
    rw [List.head?_cons] at hc
    exact Option.some.inj hc ▸ hdark
  · intro c hc
    obtain ⟨t, d, rfl, hdark⟩ := hend
    rw [List.getLast?_concat] at hc
    exact Option.some.inj hc ▸ hdark

end NoteVault.Yaml
