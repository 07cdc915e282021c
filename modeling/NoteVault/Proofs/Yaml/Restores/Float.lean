import NoteVault.Proofs.Number.Layout
import NoteVault.Proofs.Yaml.Restores.Integer

/-!
Doubles are read back from their shortest texts.
-/
namespace NoteVault.Yaml

open Number (IsExponentText)
open Binary64 (IsCanonical)

/-- Characters in the texts of doubles. -/
def isDecimal (c : Char) : Bool := c.isDigit || c = '.' || c = 'e' || c = '+' || c = '-'

theorem isDecimal_of_isDigit {c : Char} (h : c.isDigit = true) : isDecimal c = true := by simp [isDecimal, h]

theorem isNumeral_of_isDecimal {c : Char} (h : isDecimal c = true) : isNumeral c = true := by
  simp only [isDecimal, Bool.or_eq_true, decide_eq_true_eq] at h
  obtain (((h | rfl) | rfl) | rfl) | rfl := h
  · exact isNumeral_of_isDigit h
  all_goals decide

theorem isDecimal_class {c : Char} (h : isDecimal c = true) :
    Text.isBlank c = false ∧ ((Text.digitValue? c).map Nat.digitChar).getD c = c ∧ c.toLower = c ∧ c ≠ '_' ∧
      c ≠ ':' := by
  have := of_ascii (p :=
    fun c => !isDecimal c || (!Text.isBlank c && ((Text.digitValue? c).map Nat.digitChar).getD c = c &&
    c.toLower = c && c ≠ '_' && c ≠ ':')) (toNat_lt_of_isNumeral (isNumeral_of_isDecimal h)) (by decide)
  simpa [h, and_assoc] using this

variable {s whole part tail : List Char} {n : Int}

theorem plainForm_decimal (h : ∀ c ∈ s, isDecimal c = true) : Number.plainForm s = s := by
  rw [Number.plainForm, Text.trimBy_of_none fun c hc => (isDecimal_class (h c hc)).1]
  refine (List.map_congr_left fun c hc => ?_).trans (List.map_id s)
  have := (isDecimal_class (h c hc)).2.1
  cases hv : Text.digitValue? c with
  | none => rfl
  | some d => simpa [hv] using this

theorem lower_decimal (h : ∀ c ∈ s, isDecimal c = true) : Text.lower (String.ofList s) = String.ofList s := by
  have hfrom : ∀ {s : List Char}, (∀ c ∈ s, isDecimal c = true) → ∀ b, Text.lowerFrom b s = s := by
    intro s hs b
    induction s generalizing b with
    | nil => rfl
    | cons c s ih =>
      have hc := hs c List.mem_cons_self
      have hascii := toNat_lt_of_isNumeral (isNumeral_of_isDecimal hc)
      have hsigma : c ≠ 'Σ' := by
        rintro rfl
        exact absurd hascii (by decide)
      rw [Text.lowerFrom, if_neg hsigma, Text.lowerChar, if_pos hascii, (isDecimal_class hc).2.2.1,
        ih fun d hd => hs d (List.mem_cons_of_mem _ hd)]
      rfl
  rw [Text.lower, String.toList_ofList, hfrom h]

theorem isDecimal_tail (h : IsExponentText tail n) : ∀ c ∈ tail, isDecimal c = true := by
  cases h with
  | none => simp
  | plus _ h | minus _ h =>
    simp only [List.forall_mem_cons]
    exact ⟨by decide, by decide, fun c hc => isDecimal_of_isDigit (h c hc)⟩

theorem isDecimal_text (hwhole : ∀ c ∈ whole, c.isDigit = true) (hpart : ∀ c ∈ part, c.isDigit = true)
    (htail : IsExponentText tail n) : ∀ c ∈ whole ++ '.' :: (part ++ tail), isDecimal c = true := by
  intro c hc
  simp only [List.mem_append, List.mem_cons] at hc
  obtain hc | rfl | hc | hc := hc
  · exact isDecimal_of_isDigit (hwhole c hc)
  · decide
  · exact isDecimal_of_isDigit (hpart c hc)
  · exact isDecimal_tail htail c hc

theorem isFraction_text (hpart : ∀ c ∈ part, c.isDigit = true) (htail : IsExponentText tail n) :
    Plain.isFraction (part ++ tail) = true := by
  have hjoin : ∀ c ∈ part, Plain.isDigitOrJoin c = true := fun c hc => by rw [Plain.isDigitOrJoin, hpart c hc]; rfl
  rw [Plain.isFraction, List.dropWhile_append_of_pos hjoin]
  cases htail with
  | none => rfl
  | plus hne h | minus hne h =>
    rw [List.dropWhile_cons, if_neg (by decide)]
    simp [Plain.isExponent, Plain.isRun, hne, List.all_eq_true.2 h]

theorem ofPlain_decimal (negative : Bool) (hne : whole ≠ []) (hwhole : ∀ c ∈ whole, c.isDigit = true)
    (hpart : ∀ c ∈ part, c.isDigit = true) (htail : IsExponentText tail n) :
    Tag.ofPlain (String.ofList (signText negative ++ (whole ++ '.' :: (part ++ tail)))) = .float := by
  have hdecimal := isDecimal_text hwhole hpart htail
  have hnumeral : ∀ c ∈ signText negative ++ (whole ++ '.' :: (part ++ tail)), isNumeral c = true := fun c hc =>
    (List.mem_append.1 hc).elim isNumeral_signText fun hc => isNumeral_of_isDecimal (hdecimal c hc)
  obtain ⟨d, ds, rfl⟩ := List.exists_cons_of_ne_nil hne
  have hd := hwhole d List.mem_cons_self
  have hpoint : ∀ c ∈ d :: ds, (decide (c ≠ '.')) = true := fun c hc => by
    rw [decide_eq_true_eq]
    rintro rfl
    exact absurd (hwhole _ hc) (by decide)
  have hrun : (d :: ds ++ '.' :: (part ++ tail)).takeWhile (· ≠ '.') = d :: ds ∧
      (d :: ds ++ '.' :: (part ++ tail)).dropWhile (· ≠ '.') = '.' :: (part ++ tail) := by
    rw [List.takeWhile_append_of_pos hpoint, List.dropWhile_append_of_pos hpoint]
    simp
  have hfloat : Plain.isFloat (signText negative ++ (d :: ds ++ '.' :: (part ++ tail))) = true := by
    have hjoin : ds.all Plain.isDigitOrJoin = true := List.all_eq_true.2 fun c hc => by
      rw [Plain.isDigitOrJoin, hwhole c (List.mem_cons_of_mem _ hc)]
      rfl
    unfold Plain.isFloat
    dsimp only
    rw [List.cons_append, dropSign_number negative _ hd, ← List.cons_append, hrun.1, hrun.2]
    simp [Plain.isDigits, hd, hjoin, isFraction_text hpart htail]
  rw [Tag.ofPlain]
  simp only [String.toList_ofList, dropFinalBreak_of_numeral hnumeral, hfloat]
  rw [List.cons_append, isBool_number negative _ hd]
  simp [signText]

theorem readFloat?_decimal (hne : whole ≠ []) (hwhole : ∀ c ∈ whole, c.isDigit = true)
    (hpart : ∀ c ∈ part, c.isDigit = true) (htail : IsExponentText tail n) :
    Number.readFloat? (whole ++ '.' :: (part ++ tail)) =
      some (Binary64.ofDecimal false (Number.decimalValue (whole ++ part)) (n - part.length)) := by
  have hdecimal := isDecimal_text hwhole hpart htail
  have hjoin : '_' ∉ whole ++ '.' :: (part ++ tail) := fun hmem => (isDecimal_class (hdecimal _ hmem)).2.2.2.1 rfl
  have hread := Number.readDecimal?_text false hne hwhole hpart htail
  rw [Number.readFloat?, plainForm_decimal hdecimal, Number.joinDigits_of_not_mem hjoin]
  obtain ⟨d, ds, rfl⟩ := List.exists_cons_of_ne_nil hne
  have hd := hwhole d List.mem_cons_self
  have hsign := signOf_number false (ds ++ '.' :: (part ++ tail)) hd
  rw [signText, if_neg Bool.false_ne_true, List.nil_append] at hsign
  have hletter : ∀ {word : List Char}, word.head?.any Char.isDigit = false →
      (d :: (ds ++ '.' :: (part ++ tail))).map Char.toLower ≠ word := by
    rintro word hword rfl
    rw [List.map_cons, (isDecimal_class (isDecimal_of_isDigit hd)).2.2.1] at hword
    simp [hd] at hword
  rw [List.cons_append] at hread ⊢
  simp only [Option.bind_eq_bind, Option.bind_some, hsign]
  rw [if_neg (not_or.2 ⟨hletter (by decide), hletter (by decide)⟩), if_neg (hletter (by decide)), hread]

theorem floatValue_decimal (negative : Bool) (hne : whole ≠ []) (hwhole : ∀ c ∈ whole, c.isDigit = true)
    (hpart : ∀ c ∈ part, c.isDigit = true) (htail : IsExponentText tail n) :
    floatValue (String.ofList (signText negative ++ (whole ++ '.' :: (part ++ tail)))) =
      .ok (if negative then (Binary64.ofDecimal false (Number.decimalValue (whole ++ part)) (n - part.length)).neg
        else Binary64.ofDecimal false (Number.decimalValue (whole ++ part)) (n - part.length)) := by
  have hdecimal := isDecimal_text hwhole hpart htail
  have hread := readFloat?_decimal hne hwhole hpart htail
  obtain ⟨d, ds, rfl⟩ := List.exists_cons_of_ne_nil hne
  have hd := hwhole d List.mem_cons_self
  have hall : ∀ c ∈ signText negative ++ (d :: ds ++ '.' :: (part ++ tail)), isDecimal c = true := by
    intro c hc
    obtain hc | hc := List.mem_append.1 hc
    · cases negative <;> simp [signText] at hc
      rw [hc]
      decide
    · exact hdecimal c hc
  have hfilter : (signText negative ++ (d :: ds ++ '.' :: (part ++ tail))).filter (· ≠ '_') =
      signText negative ++ (d :: ds ++ '.' :: (part ++ tail)) :=
    List.filter_eq_self.2 fun c hc => decide_eq_true (isDecimal_class (hall c hc)).2.2.2.1
  have hsigned : signed (signText negative ++ (d :: ds ++ '.' :: (part ++ tail))) =
      .ok (negative, d :: ds ++ '.' :: (part ++ tail)) := by
    unfold signed
    split
    next heq => simp at heq
    next => rw [List.cons_append, signOf_number negative _ hd]
  have hcolon : (d :: ds ++ '.' :: (part ++ tail)).contains ':' = false := by
    rw [List.contains_eq_mem, decide_eq_false_iff_not]
    exact fun hmem => (isDecimal_class (hdecimal _ hmem)).2.2.2.2 rfl
  have hpoint : ∀ {word : List Char}, word.head?.any Char.isDigit = false →
      d :: ds ++ '.' :: (part ++ tail) ≠ word := by
    rintro word hword rfl
    simp [hd] at hword
  rw [floatValue, String.toList_ofList, hfilter, lower_decimal hall, String.toList_ofList, hsigned]
  simp only [bind, Except.bind, floatMagnitude]
  rw [if_neg (hpoint (by decide)), if_neg (hpoint (by decide)), hcolon]
  simp only [decimal, hread]
  cases negative <;> rfl

/-- A double is read back. -/
theorem restores_float {x : Binary64} (h : x.IsCanonical) :
    (Content.ofValue [] [] (.float x)).1.Restores (.float x) := by
  have hclosed : ∀ x ∈ [Binary64.nan, .infinite false, .infinite true, .finite false 0 Binary64.minExponent,
      .finite true 0 Binary64.minExponent], Form.allowsPlain (Content.floatLayout.write x).toList = true ∧
      (Content.floatLayout.write x).toList ≠ [] ∧
        Tag.ofPlain (String.ofList (Content.floatLayout.write x).toList) = .float ∧
      floatValue (String.ofList (Content.floatLayout.write x).toList) = .ok x := by decide
  have hrestores : Form.allowsPlain (Content.floatLayout.write x).toList = true ∧
      (Content.floatLayout.write x).toList ≠ [] ∧
        Tag.ofPlain (String.ofList (Content.floatLayout.write x).toList) = .float ∧
      floatValue (String.ofList (Content.floatLayout.write x).toList) = .ok x := by
    cases x with
    | nan => exact hclosed _ (by simp)
    | infinite negative => exact hclosed _ (by cases negative <;> simp)
    | finite negative m e =>
      obtain rfl | hm := Nat.eq_zero_or_pos m
      · obtain rfl : e = Binary64.minExponent := h.2.2.2.resolve_left (by decide)
        exact hclosed _ (by cases negative <;> simp)
      · obtain ⟨whole, part, tail, n, htext, hne, hwhole, hpart, htail, hvalue⟩ :=
          Binary64.exists_text (l := Content.floatLayout) rfl hm h
        have hnumeral : ∀ c ∈ signText negative ++ (whole ++ '.' :: (part ++ tail)), isNumeral c = true := fun c hc =>
          (List.mem_append.1 hc).elim isNumeral_signText fun hc =>
            isNumeral_of_isDecimal (isDecimal_text hwhole hpart htail c hc)
        rw [← signText] at htext
        rw [htext]
        refine ⟨allowsPlain_of_numeral hnumeral ?_, by simp, ofPlain_decimal negative hne hwhole hpart htail, ?_⟩
        · obtain ⟨d, ds, rfl⟩ := List.exists_cons_of_ne_nil hne
          exact startsWithSign_number negative _ (hwhole d List.mem_cons_self)
        · rw [floatValue_decimal negative hne hwhole hpart htail, hvalue]
          cases negative <;> rfl
  obtain ⟨hplain, hne, htag, hvalue⟩ := hrestores
  refine restores_plain _ rfl rfl hplain hne htag fun mark => ⟨rfl, ?_⟩
  rw [Node.scalarValue]
  simp only [Node.head, Node.scalarText, bind, Except.bind, hvalue, Node.liftValue, pure, Except.pure]

end NoteVault.Yaml
