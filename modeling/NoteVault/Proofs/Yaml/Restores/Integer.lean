import Mathlib.Data.List.TakeWhile
import NoteVault.Proofs.Text.Digits
import NoteVault.Proofs.Text.Trim
import NoteVault.Proofs.Yaml.Restores.Text

/-!
Integers of at most as many digits as can be written are read back.
-/
namespace NoteVault.Yaml

/-- Characters of numbers: letters, digits, signs and points. -/
def isNumeral (c : Char) : Bool := c.isAlphanum || c = '+' || c = '-' || c = '.'

theorem toNat_lt_of_isNumeral {c : Char} (h : isNumeral c = true) : c.toNat < 128 := by
  delta isNumeral Char.isAlphanum Char.isAlpha Char.isUpper Char.isLower Char.isDigit at h
  simp only [Bool.or_eq_true, Bool.and_eq_true, decide_eq_true_eq, UInt32.le_iff_toNat_le] at h
  rcases h with (((((h | h) | h) | rfl) | rfl) | rfl) <;> first | decide | skip
  all_goals
    refine Nat.lt_of_le_of_lt h.2 ?_
    decide

theorem isNumeral_class {c : Char} (h : isNumeral c = true) :
    Form.isOrdinary c = true ∧ Form.isSpace c = false ∧ c ≠ ':' := by
  have := of_ascii (p := fun c => !isNumeral c || (Form.isOrdinary c && !Form.isSpace c && c ≠ ':'))
    (toNat_lt_of_isNumeral h) (by decide)
  simpa [h, and_assoc] using this

theorem hasPair_of_none {p q : Char → Bool} {s : List Char} (h : ∀ c ∈ s, p c = false) :
    Form.hasPair p q s = false := by
  induction s with
  | nil => rfl
  | cons c s ih =>
    cases s with
    | nil => rfl
    | cons d s =>
      rw [Form.hasPair, h c (by simp), ih fun e he => h e (List.mem_cons_of_mem _ he)]
      rfl

/-- A text of letters, digits, signs and points is written plain unless its beginning forbids that. -/
theorem allowsPlain_of_numeral {s : List Char} (h : ∀ c ∈ s, isNumeral c = true)
    (hsign : Form.startsWithSign s = false) :
    Form.allowsPlain s = true := by
  have hspace : ∀ c ∈ s, Form.isSpace c = false := fun c hc => (isNumeral_class (h c hc)).2.1
  have hblank : ∀ c ∈ s, Form.isBlank c = false ∧ Form.isBreak c = false := by
    intro c hc
    have := hspace c hc
    simp only [Form.isSpace, Bool.or_eq_false_iff] at this
    exact ⟨this.1.1.1.2, this.2⟩
  have hbreak : Form.hasBreak s = false := by
    simp only [Form.hasBreak, List.any_eq_false, Bool.not_eq_true]
    exact fun c hc => (hblank c hc).2
  have hinner : Form.hasInnerSign s = false := by
    clear hsign hblank hbreak
    induction s with
    | nil => rfl
    | cons c s ih =>
      have hc := isNumeral_class (h c (by simp))
      rw [Form.hasInnerSign,
        ih (fun d hd => h d (List.mem_cons_of_mem _ hd)) fun d hd => hspace d (List.mem_cons_of_mem _ hd)]
      simp [hc.2.1, hc.2.2]
  have hhead : s.head?.any Form.isBlank = false := by
    cases s with
    | nil => rfl
    | cons c s => exact (hblank c (by simp)).1
  have hlast : s.getLast?.any Form.isBlank = false := by
    cases he : s.getLast? with
    | none => rfl
    | some c => exact (hblank c (List.mem_of_getLast? he)).1
  simp only [Form.allowsPlain, Form.allowsSingle, Form.needsDouble, hasPair_of_none fun c hc => (hblank c hc).1,
    hasPair_of_none fun c hc => (hblank c hc).2, hbreak, hinner, hhead, hlast, hsign]
  simpa using fun c hc => (isNumeral_class (h c hc)).1

theorem dropFinalBreak_of_numeral {s : List Char} (h : ∀ c ∈ s, isNumeral c = true) : Plain.dropFinalBreak s = s := by
  rw [Plain.dropFinalBreak, if_neg]
  intro hlast
  exact absurd (h '\n' (List.mem_of_getLast? hlast)) (by decide)

theorem isNumeral_of_isDigit {c : Char} (h : c.isDigit = true) : isNumeral c = true := by
  simp [isNumeral, Char.isAlphanum, h]

/-- A sign of a negative number, or nothing. -/
def signText (negative : Bool) : List Char := if negative then ['-'] else []

/-- The digits of a number. -/
abbrev digitsOf (n : Nat) : List Char := Nat.toDigits 10 n

theorem isDigit_of_mem_digitsOf {n : Nat} {c : Char} (h : c ∈ digitsOf n) : c.isDigit = true :=
  Nat.isDigit_of_mem_toDigits (by decide) (by decide) h

theorem toList_toString_int (n : Int) : (toString n).toList = signText (n < 0) ++ digitsOf n.natAbs := by
  cases n with
  | ofNat m =>
    rw [show (toString (Int.ofNat m)) = m.repr from rfl, Nat.toList_repr]
    rfl
  | negSucc m =>
    rw [show (toString (Int.negSucc m)) = "-" ++ (m + 1).repr from rfl, String.toList_append, Nat.toList_repr,
      show decide (Int.negSucc m < 0) = true by simp [Int.negSucc_lt_zero]]
    rfl

theorem isNumeral_signText {negative : Bool} {c : Char} (h : c ∈ signText negative) : isNumeral c = true := by
  cases negative <;> simp [signText] at h
  rw [h]
  decide

/-- The first digit of a positive number is not zero. -/
theorem head_digitsOf {n : Nat} (h : 0 < n) : (digitsOf n).head? ≠ some '0' := by
  induction n using Nat.strong_induction_on with
  | _ n ih =>
    rw [digitsOf, Nat.toDigits_eq_if (by decide)]
    split
    next hn =>
      have hdigit : ∀ d < 10, 0 < d → Nat.digitChar d ≠ '0' := by decide
      simpa using hdigit n hn h
    next hn =>
      have hquot := ih (n / 10) (by omega) (by omega)
      rw [List.head?_append]
      cases hd : (digitsOf (n / 10)).head? with
      | none => exact absurd (List.head?_eq_none_iff.1 hd) Nat.toDigits_ne_nil
      | some c =>
        rw [hd] at hquot
        simpa [digitsOf] using hquot

theorem startsWithSign_number (negative : Bool) {d : Char} (rest : List Char) (h : d.isDigit = true) :
    Form.startsWithSign (signText negative ++ d :: rest) = false := by
  have hd := of_ascii (p := fun d => !d.isDigit || (!"#,[]\x7b\x7d&*!|>'\"%@\x60".toList.contains d &&
    !(['?', ':', '-'] : List Char).contains d && !Form.isSpace d && d ≠ '-' && d ≠ '.'))
      (toNat_lt_of_isNumeral (isNumeral_of_isDigit h))
    (by decide)
  simp only [h, Bool.not_true, Bool.false_or, Bool.and_eq_true, Bool.not_eq_true', decide_eq_true_eq] at hd
  obtain ⟨⟨⟨⟨hsign, hindicator⟩, hspace⟩, hdash⟩, hdot⟩ := hd
  cases negative with
  | false =>
    simp only [signText, Bool.false_eq_true, if_false, List.nil_append, Form.startsWithSign, hsign, hindicator]
    simp [hdash, hdot]
  | true =>
    simp only [signText, if_true, List.cons_append, List.nil_append, Form.startsWithSign, Form.spaceFollows, hspace]
    simp [hdash]

theorem exists_digitsOf (n : Nat) : ∃ d ds, digitsOf n = d :: ds ∧ d.isDigit = true := by
  cases h : digitsOf n with
  | nil => exact absurd h Nat.toDigits_ne_nil
  | cons d ds => exact ⟨d, ds, rfl, isDigit_of_mem_digitsOf (h ▸ List.mem_cons_self)⟩

theorem isNumeral_integer {negative : Bool} {n : Nat} {c : Char} (h : c ∈ signText negative ++ digitsOf n) :
    isNumeral c = true := by
  obtain h | h := List.mem_append.1 h
  · exact isNumeral_signText h
  · exact isNumeral_of_isDigit (isDigit_of_mem_digitsOf h)

theorem dropSign_number (negative : Bool) {d : Char} (rest : List Char) (h : d.isDigit = true) :
    Plain.dropSign (signText negative ++ d :: rest) = d :: rest := by
  cases negative with
  | true => rfl
  | false =>
    rw [signText, if_neg (by simp), List.nil_append]
    unfold Plain.dropSign
    split
    next heq => exact absurd h (by rw [(List.cons.inj heq).1]; decide)
    next heq => exact absurd h (by rw [(List.cons.inj heq).1]; decide)
    next => rfl

theorem signOf_number (negative : Bool) {d : Char} (rest : List Char) (h : d.isDigit = true) :
    Number.signOf (signText negative ++ d :: rest) = (negative, d :: rest) := by
  cases negative with
  | true => rfl
  | false =>
    rw [signText, if_neg (by simp), List.nil_append]
    unfold Number.signOf
    split
    next heq => exact absurd h (by rw [(List.cons.inj heq).1]; decide)
    next heq => exact absurd h (by rw [(List.cons.inj heq).1]; decide)
    next => rfl

/-- The words for truth values begin with a letter. -/
theorem isBool_number (negative : Bool) {d : Char} (rest : List Char) (h : d.isDigit = true) :
    Plain.isBool (signText negative ++ d :: rest) = false := by
  have hwords : ∀ w ∈ ["yes", "Yes", "YES", "no", "No", "NO", "true", "True", "TRUE", "false", "False", "FALSE",
      "on", "On", "ON", "off", "Off", "OFF"], w.toList.head?.any (fun c => c = '-' || c.isDigit) = false := by decide
  rw [Plain.isBool, List.any_eq_false]
  intro w hw heq
  have := hwords w hw
  rw [of_decide_eq_true heq] at this
  cases negative <;> simp [signText, h] at this

theorem ofPlain_integer (negative : Bool) (n : Nat) :
    Tag.ofPlain (String.ofList (signText negative ++ digitsOf n)) = .int := by
  have hnumeral : ∀ c ∈ signText negative ++ digitsOf n, isNumeral c = true := fun c hc => isNumeral_integer hc
  obtain ⟨d, ds, hds, hd⟩ := exists_digitsOf n
  have hfloat : Plain.isFloat (signText negative ++ digitsOf n) = false := by
    have hrest : (digitsOf n).dropWhile (· ≠ '.') = [] := by
      refine List.dropWhile_eq_nil_iff.2 fun c hc => ?_
      rw [decide_eq_true_eq]
      rintro rfl
      exact absurd (isDigit_of_mem_digitsOf hc) (by decide)
    unfold Plain.isFloat
    dsimp only
    rw [hds, dropSign_number negative ds hd, ← hds, hrest]
  have hint : Plain.isInt (signText negative ++ digitsOf n) = true := by
    rw [Plain.isInt, hds, dropSign_number negative ds hd, ← hds]
    obtain rfl | hpos := Nat.eq_zero_or_pos n
    · rfl
    · have hcount : Plain.isCount (digitsOf n) = true := by
        simp only [Plain.isCount, Bool.and_eq_true, decide_eq_true_eq]
        refine ⟨?_, head_digitsOf hpos⟩
        rw [hds, Plain.isDigits, hd, Bool.true_and, List.all_eq_true]
        intro c hc
        rw [Plain.isDigitOrJoin, isDigit_of_mem_digitsOf (hds ▸ List.mem_cons_of_mem d hc), Bool.true_or]
      rw [hcount]
      simp
  rw [Tag.ofPlain]
  simp only [String.toList_ofList, dropFinalBreak_of_numeral hnumeral, hfloat, hint]
  rw [hds, isBool_number negative ds hd]
  simp [signText]

theorem digit_class {c : Char} (h : c.isDigit = true) :
    Text.isBlank c = false ∧ Text.digitValue? c = some (c.toNat - 48) ∧ Nat.digitChar (c.toNat - 48) = c ∧
      Number.digitOf? c = some (c.toNat - 48) ∧ c.toNat - 48 < 10 := by
  have := of_ascii (p := fun c => !c.isDigit || (!Text.isBlank c && Text.digitValue? c = some (c.toNat - 48) &&
    Nat.digitChar (c.toNat - 48) = c && Number.digitOf? c = some (c.toNat - 48) && c.toNat - 48 < 10))
    (toNat_lt_of_isNumeral (isNumeral_of_isDigit h)) (by decide)
  simpa [h, and_assoc] using this

theorem plainForm_digits {s : List Char} (h : ∀ c ∈ s, c.isDigit = true) : Number.plainForm s = s := by
  rw [Number.plainForm, Text.trimBy_of_none fun c hc => (digit_class (h c hc)).1]
  refine (List.map_congr_left fun c hc => ?_).trans (List.map_id s)
  obtain ⟨-, hvalue, hchar, -⟩ := digit_class (h c hc)
  rw [hvalue]
  exact hchar

theorem ofDigits_digits (s : List Char) :
    Number.ofDigits 10 (s.map fun c => c.toNat - 48) = Text.valueOf 10 (fun c => c.toNat - 48) s := by
  rw [Number.ofDigits, Text.valueOf, List.foldl_map]
  simp only [Nat.mul_comm]

theorem inBase?_digitsOf (n : Nat) : Number.inBase? 10 (digitsOf n) = some n := by
  have hmap : ∀ {s : List Char}, (∀ c ∈ s, c.isDigit = true) →
      s.mapM Number.digitOf? = some (s.map fun c => c.toNat - 48) := by
    intro s hs
    induction s with
    | nil => rfl
    | cons c s ih =>
      rw [List.mapM_cons, (digit_class (hs c (by simp))).2.2.2.1, ih fun d hd => hs d (List.mem_cons_of_mem _ hd)]
      rfl
  have hsmall : ∀ c ∈ digitsOf n, c.toNat - 48 < 10 := fun c hc => (digit_class (isDigit_of_mem_digitsOf hc)).2.2.2.2
  have hvalue : Text.valueOf 10 (fun c => c.toNat - 48) (digitsOf n) = n :=
    Text.valueOf_toDigits (by decide) (by decide) n
  rw [Number.inBase?, hmap fun c hc => isDigit_of_mem_digitsOf hc]
  simpa [ofDigits_digits, hvalue, digitsOf, Nat.toDigits_ne_nil] using hsmall

theorem length_digitsOf {n k : Nat} (hk : 0 < k) (h : n < Nat.pow 10 k) : (digitsOf n).length ≤ k :=
  (Nat.length_toDigits_le_iff (by decide) hk).2 h

theorem integer_digitsOf {n : Nat} (hpos : 0 < n) (h : n < Nat.pow 10 Number.maxDigits) :
    integer 10 (digitsOf n) = .ok n := by
  obtain ⟨d, ds, hds, hd⟩ := exists_digitsOf n
  have hzero : d ≠ '0' := by simpa [hds] using head_digitsOf hpos
  have hdigits : ∀ c ∈ digitsOf n, c.isDigit = true := fun c hc => isDigit_of_mem_digitsOf hc
  have hlength : (digitsOf n).length ≤ Number.maxDigits := length_digitsOf (by decide) h
  have hbase : dropBase 10 (digitsOf n) = digitsOf n := by
    rw [hds]
    unfold dropBase
    split
    next heq => exact absurd (List.cons.inj heq).1 hzero
    next => rfl
  have hrun : (digitsOf n).takeWhile Char.isDigit = digitsOf n := List.takeWhile_eq_self_iff.2 hdigits
  have hsign : Number.signOf (digitsOf n) = (false, digitsOf n) := by
    rw [hds]
    exact signOf_number false ds hd
  rw [integer, plainForm_digits hdigits]
  simp only [hsign, hbase, hrun, inBase?_digitsOf]
  simp only [Nat.not_lt.2 hlength, decide_false, Bool.and_false, Bool.false_eq_true, if_false]

theorem magnitude_digitsOf {n : Nat} (h : n < Nat.pow 10 Number.maxDigits) : magnitude (digitsOf n) = .ok n := by
  obtain rfl | hpos := Nat.eq_zero_or_pos n
  · rfl
  obtain ⟨d, ds, hds, hd⟩ := exists_digitsOf n
  have hzero : d ≠ '0' := by simpa [hds] using head_digitsOf hpos
  have hcolon : (digitsOf n).contains ':' = false := by
    rw [List.contains_eq_mem, decide_eq_false_iff_not]
    exact fun hmem => absurd (isDigit_of_mem_digitsOf hmem) (by decide)
  unfold magnitude
  split
  next heq => exact absurd heq (by simp [hds])
  next heq => exact absurd heq (by simp [hds, hzero])
  next heq => exact absurd heq (by simp [hds, hzero])
  next heq => exact absurd heq (by simp [hds, hzero])
  next heq => exact absurd heq (by simp [hds, hzero])
  next => rw [if_neg (by simpa using hcolon), integer_digitsOf hpos h]

theorem intValue_integer (negative : Bool) {n : Nat} (h : n < Nat.pow 10 Number.maxDigits) :
    intValue (String.ofList (signText negative ++ digitsOf n)) = .ok (if negative then -(n : Int) else n) := by
  obtain ⟨d, ds, hds, hd⟩ := exists_digitsOf n
  have hfilter : (signText negative ++ digitsOf n).filter (· ≠ '_') = signText negative ++ digitsOf n := by
    refine List.filter_eq_self.2 fun c hc => ?_
    rw [decide_eq_true_eq]
    rintro rfl
    exact absurd (isNumeral_integer hc) (by decide)
  have hsigned : signed (signText negative ++ digitsOf n) = .ok (negative, digitsOf n) := by
    have hsign := signOf_number negative ds hd
    rw [← hds] at hsign
    unfold signed
    split
    next heq => exact absurd heq (by simp [hds])
    next => rw [hsign]
  rw [intValue, String.toList_ofList, hfilter, hsigned]
  simp only [bind, Except.bind, magnitude_digitsOf h]
  rfl

/-- An integer that can be written is read back. -/
theorem restores_int {n : Int} (h : (Value.int n).hasLongInteger = false) :
    (Content.ofValue [] [] (.int n)).1.Restores (.int n) := by
  have hshort : n.natAbs < Nat.pow 10 Number.maxDigits := Nat.lt_of_not_le (of_decide_eq_false h)
  obtain ⟨d, ds, hds, hd⟩ := exists_digitsOf n.natAbs
  have hsame : (if decide (n < 0) = true then -(n.natAbs : Int) else n.natAbs) = n := by
    split
    next hneg => have := of_decide_eq_true hneg; omega
    next hneg => rw [decide_eq_true_eq] at hneg; omega
  refine restores_plain (signText (n < 0) ++ digitsOf n.natAbs) ?_ rfl
    (allowsPlain_of_numeral (fun c hc => isNumeral_integer hc) ?_) ?_ (ofPlain_integer _ _) fun mark => ⟨rfl, ?_⟩
  · rw [← toList_toString_int]
    rfl
  · rw [hds]
    exact startsWithSign_number _ ds hd
  · rw [hds]
    simp
  · rw [Node.scalarValue]
    simp only [Node.head, Node.scalarText, bind, Except.bind, intValue_integer _ hshort, Node.liftValue, pure,
      Except.pure, hsame]

end NoteVault.Yaml
