import NoteVault.Proofs.Yaml.Lines
import NoteVault.Proofs.Yaml.Scalar.Double
import NoteVault.Proofs.Yaml.Scalar.Literal

/-!
Texts in the styles in which they are written, and which of them are read back.
-/
namespace NoteVault.Yaml

/-- A text that is read back in a style. -/
def Form.IsReadable : Style → List Char → Prop
  | .plain, s => allowsPlain s = true ∧ s ≠ []
  | .single, s => IsSingle s
  | .double, _ => True
  | .literal, s => ∃ lines, lines ≠ [] ∧ (∀ line ∈ lines, IsBlockLine line) ∧ s = ended lines
  | .folded, _ => False

/-- The style in which a text is written with a tag. -/
def Form.styleFor (asKey : Bool) (tag : Tag) (wish : Option Style) (text : List Char) : Style :=
  Form.style wish (Tag.ofPlain (String.ofList text) = tag) asKey text

namespace Form

/-- The first characters of a written text begin a token and no document. -/
theorem exists_body {style : Style} {text : List Char} (h : IsReadable style text) (i : Nat) :
    ∃ x w, body i style text = x :: w ∧ isFlat x = true ∧ (x ≠ ' ' ∧ x ≠ '#') ∧
      startsDocument (x :: w) = false := by
  cases style with
  | plain =>
    obtain ⟨hplain, hne⟩ := h
    cases text with
    | nil => exact absurd rfl hne
    | cons x w =>
      have hflat := (isPlain_of_allowsPlain hplain).flat x (by simp)
      simp only [allowsPlain, Bool.and_eq_true, Bool.not_eq_true', startsWithSign, Bool.or_eq_false_iff]
        at hplain
      obtain ⟨⟨⟨⟨-, hblank⟩, -⟩, ⟨⟨hsign, -⟩, hdashes⟩, hdots⟩, -⟩ := hplain
      refine ⟨x, w, rfl, hflat, ⟨by simpa [isBlank] using hblank, ?_⟩, by rw [startsDocument, hdashes, hdots]; rfl⟩
      rintro rfl
      exact absurd hsign (by decide)
  | single => exact ⟨_, _, rfl, by decide, by decide, rfl⟩
  | double => exact ⟨_, _, rfl, by decide, by decide, rfl⟩
  | literal => exact ⟨'|', _, rfl, by decide, by decide, rfl⟩
  | folded => exact absurd h id

/-- A text without breaks is written the same way at every indentation. -/
theorem body_indent {style : Style} {text : List Char} (hs : style ≠ .literal ∧ style ≠ .folded)
    (hb : hasBreak text = false) (i j : Nat) : body i style text = body j style text := by
  have hsingle : ∀ {text : List Char}, hasBreak text = false →
      singleBody i false text = singleBody j false text := by
    intro text hb
    induction text with
    | nil => rfl
    | cons c text ih =>
      simp only [hasBreak, List.any_cons, Bool.or_eq_false_iff] at hb
      simp only [singleBody, hb.1, Bool.false_eq_true, if_false]
      rw [ih hb.2]
  cases style with
  | plain => rfl
  | single => rw [body, body, hsingle hb]
  | double => rfl
  | literal => exact absurd rfl hs.1
  | folded => exact absurd rfl hs.2

theorem isFlat_of_mem_doubleChar {c y : Char} (h : y ∈ doubleChar c) : isFlat y = true := by
  obtain h | rfl | rfl := mem_doubleChar h
  · exact (isFlat_of_isBare h).1
  · decide
  · decide

/-- A text without breaks is written on one line. -/
theorem isFlat_body {style : Style} {text : List Char} (hread : IsReadable style text)
    (hs : style ≠ .literal) (hb : hasBreak text = false) {i : Nat} {y : Char} (hy : y ∈ body i style text) :
    isFlat y = true := by
  simp only [hasBreak, List.any_eq_false, Bool.not_eq_true] at hb
  cases style with
  | plain => exact (isPlain_of_allowsPlain hread.1).flat y hy
  | single =>
    have hsingle : ∀ {text : List Char}, (∀ c ∈ text, isBreak c = false ∧ isOrdinary c = true) →
        ∀ y ∈ singleBody i false text, isFlat y = true := by
      intro text htext y hy
      induction text with
      | nil => simp [singleBody] at hy
      | cons c text ih =>
        obtain ⟨hbreak, hord⟩ := htext c (by simp)
        simp only [singleBody, hbreak, Bool.false_eq_true, if_false, List.nil_append, List.mem_append] at hy
        obtain hy | hy := hy
        · by_cases hq : c = '\''
          · have : y = '\'' := by simpa [hq] using hy
            rw [this]
            decide
          · rw [if_neg hq, List.mem_singleton] at hy
            rw [hy]
            exact (isFlat_of_isOrdinary hord hbreak).1
        · exact ih (fun d hd => htext d (List.mem_cons_of_mem _ hd)) hy
    simp only [body, List.cons_append, List.mem_cons, List.mem_append, List.not_mem_nil, or_false] at hy
    rcases hy with rfl | hy | rfl
    · decide
    · exact hsingle (fun c hc => ⟨hb c hc, hread.ordinary c hc⟩) y hy
    · decide
  | double =>
    simp only [body, List.cons_append, List.mem_cons, List.mem_append, List.mem_flatMap, List.not_mem_nil,
      or_false] at hy
    rcases hy with rfl | ⟨c, -, hy⟩ | rfl
    · decide
    · exact isFlat_of_mem_doubleChar hy
    · decide
  | literal => exact absurd rfl hs
  | folded => exact absurd hread id

theorem styleFor_key (asKey : Bool) (k : String) :
    styleFor asKey .str (Content.wishOf k) k.toList ≠ .literal ∧
      styleFor asKey .str (Content.wishOf k) k.toList ≠ .folded := by
  refine ⟨?_, style_eq_folded⟩
  unfold styleFor Content.wishOf style
  cases Content.startsWithDate k.toList || WikiLink.isLink k
  · simp only [Bool.false_eq_true, if_false]
    split <;> [simp; split <;> simp]
  · simp

/-- Texts are written without a tag. -/
theorem scalar_str (i : Nat) (asKey : Bool) (wish : Option Style) (text : List Char) :
    scalar i asKey .str wish text = body i (styleFor asKey .str wish text) text ∧
      showsTag (styleFor asKey .str wish text) .str text = false := by
  have hshow : showsTag (styleFor asKey .str wish text) .str text = false := by
    unfold showsTag
    split
    next hplain => simpa using (style_eq_plain hplain).1
    next => simp
  refine ⟨?_, hshow⟩
  unfold scalar
  change (if showsTag (styleFor asKey .str wish text) .str text then _ else []) ++ _ = _
  rw [hshow]
  rfl

end Form

end NoteVault.Yaml
