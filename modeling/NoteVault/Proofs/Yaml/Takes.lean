import NoteVault.Proofs.Failure
import NoteVault.Proofs.Number.Grammar
import NoteVault.Proofs.Yaml.Timestamp
import NoteVault.Yaml.Node.Scalar

/-!
Which texts a tag takes: words for truth values, integers in several bases, doubles, points in time. For any other text
the tag has no value. Every text is taken by the other tags, or it is at fault.
-/
namespace NoteVault.Yaml

open Number

/-- Letters of a base. -/
def baseLetters (base : Nat) : List Char :=
  if base = 2 then ['b', 'B'] else if base = 8 then ['o', 'O'] else if base = 16 then ['x', 'X'] else []

/-- What may stand in front of the digits of a base: nothing, or a zero and a letter. -/
def IsBase (base : Nat) (s : List Char) : Prop := s = [] ∨ ∃ x ∈ baseLetters base, s = ['0', x]

/-- Digits of a base, at most 4300 in base ten, with a sign and the letters of the base in front of them and white space
around them. -/
def IsNumeral (base : Nat) (s : List Char) : Prop :=
  ∃ sign letters digits, plainForm s = sign ++ (letters ++ digits) ∧ IsSign sign ∧ IsBase base letters ∧ digits ≠ [] ∧
    (∀ d ∈ digits, IsDigitOf base d) ∧ (base = 10 → digits.length ≤ maxDigits)

theorem dropBase_cons (base : Nat) (x : Char) (rest : List Char) :
    dropBase base ('0' :: x :: rest) = if (baseLetters base).contains x then rest else '0' :: x :: rest := rfl

theorem exists_dropBase (base : Nat) (s : List Char) :
    ∃ letters, IsBase base letters ∧ s = letters ++ dropBase base s := by
  by_cases h : ∃ x rest, s = '0' :: x :: rest
  · obtain ⟨x, rest, rfl⟩ := h
    rw [dropBase_cons]
    split
    next hx => exact ⟨['0', x], .inr ⟨x, List.contains_iff_mem.1 hx, rfl⟩, rfl⟩
    next => exact ⟨[], .inl rfl, rfl⟩
  · refine ⟨[], .inl rfl, ?_⟩
    rw [dropBase.eq_def]
    split
    next x rest => exact absurd ⟨x, rest, rfl⟩ h
    next => rfl

/-- No letter of a base is a digit of it. -/
theorem not_isDigitOf_baseLetters {base : Nat} {x : Char} (hx : x ∈ baseLetters base) : ¬ IsDigitOf base x := by
  rintro ⟨d, hd, hdigit⟩
  unfold baseLetters at hx
  split_ifs at hx
  all_goals
    subst_vars
    simp only [List.mem_cons, List.not_mem_nil, or_false] at hx
    try rcases hx with rfl | rfl
  all_goals
    cases hdigit
    revert hd
    decide

theorem dropBase_append {base : Nat} {letters digits : List Char} (h : IsBase base letters)
    (hdigits : ∀ d ∈ digits, IsDigitOf base d) : dropBase base (letters ++ digits) = digits := by
  obtain rfl | ⟨x, hx, rfl⟩ := h
  · obtain ⟨letters, rfl | ⟨x, hx, rfl⟩, hs⟩ := exists_dropBase base digits
    · exact hs.symm
    · refine absurd (hdigits x ?_) (not_isDigitOf_baseLetters hx)
      rw [hs]
      simp
  · exact (dropBase_cons base x digits).trans (if_pos (List.contains_iff_mem.2 hx))

theorem isDigit_of_isDigitOf {c : Char} (h : IsDigitOf 10 c) : c.isDigit = true := by
  obtain ⟨d, hd, hdigit⟩ := h
  unfold digitOf? at hdigit
  split_ifs at hdigit with hten hlower hupper
  · exact hten
  · have hbounds : (c.val ≥ 'a'.val && c.val ≤ 'z'.val) = true := hlower
    simp only [Bool.and_eq_true, decide_eq_true_eq, ge_iff_le, UInt32.le_iff_toNat_le] at hbounds
    have := Option.some.inj hdigit
    have : c.val.toNat = c.toNat := rfl
    have : 'a'.val.toNat = 97 := rfl
    omega
  · have hbounds : c.val ≥ 'A'.val ∧ c.val ≤ 'Z'.val := of_decide_eq_true hupper
    simp only [ge_iff_le, UInt32.le_iff_toNat_le] at hbounds
    have := Option.some.inj hdigit
    have : c.val.toNat = c.toNat := rfl
    have : 'A'.val.toNat = 65 := rfl
    omega

theorem head?_ne_of_base {base : Nat} {letters digits : List Char} (h : IsBase base letters)
    (hdigits : ∀ d ∈ digits, IsDigitOf base d) :
    (letters ++ digits).head? ≠ some '+' ∧ (letters ++ digits).head? ≠ some '-' := by
  obtain rfl | ⟨x, -, rfl⟩ := h
  · cases digits with
    | nil => simp
    | cons d digits =>
      obtain ⟨n, -, hd⟩ := hdigits d List.mem_cons_self
      constructor <;> rintro heq <;> cases heq <;> cases hd
  · simp

theorem exists_integer_iff (base : Nat) (s : List Char) : (∃ n, integer base s = .ok n) ↔ IsNumeral base s := by
  have hread : (∃ n, integer base s = .ok n) ↔
      ¬ (base = 10 ∧ maxDigits < ((dropBase base (signOf (plainForm s)).2).takeWhile Char.isDigit).length) ∧
        ∃ n, inBase? base (dropBase base (signOf (plainForm s)).2) = some n := by
    unfold integer
    dsimp only
    split
    next hlong => simpa using fun h => absurd h (by simpa using hlong)
    next hshort =>
      cases hn : inBase? base (dropBase base (signOf (plainForm s)).2) with
      | none => simp
      | some n => simpa using hshort
  rw [hread, exists_inBase?_iff]
  constructor
  · rintro ⟨hshort, hne, hdigits⟩
    obtain ⟨sign, hsign, hs⟩ := exists_signOf (plainForm s)
    obtain ⟨letters, hletters, hbody⟩ := exists_dropBase base (signOf (plainForm s)).2
    refine ⟨sign, letters, _, by rw [← hbody, ← hs], hsign, hletters, hne, hdigits, ?_⟩
    rintro rfl
    rw [List.takeWhile_eq_self_iff.2 fun d hd => isDigit_of_isDigitOf (hdigits d hd)] at hshort
    exact not_lt.1 fun hlong => hshort ⟨rfl, hlong⟩
  · rintro ⟨sign, letters, digits, hs, hsign, hletters, hne, hdigits, hshort⟩
    rw [hs, signOf_append hsign (head?_ne_of_base hletters hdigits), dropBase_append hletters hdigits]
    refine ⟨fun ⟨hbase, hlong⟩ => ?_, hne, hdigits⟩
    exact absurd (hlong.trans_le (List.takeWhile_prefix _).length_le) (hshort hbase).not_gt

/-- An integer without its sign: zero, a binary, hexadecimal or octal number, which begin with a zero, a decimal number,
or several ones as the digits of a number in base sixty. -/
inductive IsMagnitude : List Char → Prop
  | zero : IsMagnitude ['0']
  | binary {s : List Char} (h : IsNumeral 2 s) : IsMagnitude ('0' :: 'b' :: s)
  | hexadecimal {s : List Char} (h : IsNumeral 16 s) : IsMagnitude ('0' :: 'x' :: s)
  | octal {x : Char} {s : List Char} (hx : x ≠ 'b' ∧ x ≠ 'x') (h : IsNumeral 8 ('0' :: x :: s)) :
    IsMagnitude ('0' :: x :: s)
  | decimal {s : List Char} (hs : s.head? ≠ some '0') (hcolon : ':' ∉ s) (h : IsNumeral 10 s) : IsMagnitude s
  | sixtieths {s : List Char} (hs : s.head? ≠ some '0') (hcolon : ':' ∈ s)
    (h : ∀ f ∈ Text.fields ':' s, IsNumeral 10 f) : IsMagnitude s

theorem not_isNumeral_nil (base : Nat) : ¬ IsNumeral base [] := by
  rintro ⟨sign, letters, digits, hs, -, -, hne, -⟩
  have hnil : sign ++ (letters ++ digits) = [] := hs.symm
  simp only [List.append_eq_nil_iff] at hnil
  exact hne hnil.2.2

theorem exists_magnitude_iff (s : List Char) : (∃ n, magnitude s = .ok n) ↔ IsMagnitude s := by
  unfold magnitude
  split
  · refine ⟨fun ⟨_, h⟩ => (nomatch h), fun h => ?_⟩
    cases h with
    | decimal _ _ h => exact absurd h (not_isNumeral_nil 10)
    | sixtieths _ hcolon _ => cases hcolon
  · exact ⟨fun _ => .zero, fun _ => ⟨0, rfl⟩⟩
  · rw [exists_integer_iff]
    refine ⟨.binary, fun h => ?_⟩
    cases h with
    | binary h => exact h
    | octal hx _ => exact absurd rfl hx.1
    | decimal hs _ _ | sixtieths hs _ _ => exact absurd rfl hs
  · rw [exists_integer_iff]
    refine ⟨.hexadecimal, fun h => ?_⟩
    cases h with
    | hexadecimal h => exact h
    | octal hx _ => exact absurd rfl hx.2
    | decimal hs _ _ | sixtieths hs _ _ => exact absurd rfl hs
  next tail hzero hbinary hhexadecimal =>
    rw [exists_integer_iff]
    cases tail with
    | nil => exact absurd rfl hzero
    | cons x tail =>
      refine ⟨.octal ⟨fun hx => hbinary tail (by rw [hx]), fun hx => hhexadecimal tail (by rw [hx])⟩, fun h => ?_⟩
      cases h with
      | binary _ => exact absurd rfl (hbinary tail)
      | hexadecimal _ => exact absurd rfl (hhexadecimal tail)
      | octal _ h => exact h
      | decimal hs _ _ | sixtieths hs _ _ => exact absurd rfl hs
  next hnil hzero hbinary hhexadecimal hoctal =>
    have hs : s.head? ≠ some '0' := fun hs => by
      obtain ⟨tail, rfl⟩ := List.head?_eq_some_iff.1 hs
      exact hoctal tail rfl
    split
    next hcolon =>
      have hcolon := List.contains_iff_mem.1 hcolon
      rw [exists_map, exists_mapM_eq_ok]
      simp only [exists_integer_iff]
      refine ⟨.sixtieths hs hcolon, fun h => ?_⟩
      cases h with
      | sixtieths _ _ h => exact h
      | decimal _ hnot _ => exact absurd hcolon hnot
      | _ => exact absurd rfl hs
    next hcolon =>
      have hcolon : ':' ∉ s := fun hmem => hcolon (List.contains_iff_mem.2 hmem)
      rw [exists_integer_iff]
      refine ⟨.decimal hs hcolon, fun h => ?_⟩
      cases h with
      | decimal _ _ h => exact h
      | sixtieths _ hmem _ => exact absurd hmem hcolon
      | _ => exact absurd rfl hs

/-- Underscores in integers do not count, and neither does one sign. -/
def IsInteger (text : String) : Prop := IsMagnitude (signOf (text.toList.filter (· ≠ '_'))).2

theorem exists_intValue_iff (text : String) : (∃ n, intValue text = .ok n) ↔ IsInteger text := by
  unfold IsInteger intValue
  generalize text.toList.filter (· ≠ '_') = s
  rw [← exists_magnitude_iff]
  cases s with
  | nil => exact ⟨fun ⟨_, h⟩ => (nomatch h), fun ⟨_, h⟩ => (nomatch h)⟩
  | cons c s =>
    simp only [signed, bind, Except.bind]
    cases magnitude (signOf (c :: s)).2 <;> simp [pure, Except.pure]

/-- A decimal, an infinity or `nan`, with a sign and white space around it; single underscores between digits do not
count. -/
def IsFloatNumeral (s : List Char) : Prop :=
  ∃ sign body, joinDigits Char.isDigit false (plainForm s) = some (sign ++ body) ∧ IsSign sign ∧
    (body.map Char.toLower ∈ floatWords ∨ IsDecimal body)

theorem exists_decimal_iff (s : List Char) : (∃ x, decimal s = .ok x) ↔ IsFloatNumeral s := by
  rw [IsFloatNumeral, ← exists_readFloat?_iff, decimal]
  cases readFloat? s <;> simp

theorem not_isFloatNumeral_nil : ¬ IsFloatNumeral [] := by
  rintro ⟨sign, body, hjoined, -, h⟩
  have hnil : sign ++ body = [] := (Option.some.inj hjoined).symm
  obtain ⟨-, rfl⟩ := List.append_eq_nil_iff.1 hnil
  obtain h | ⟨whole, part, exponent, hs, -, -, hne, -⟩ := h
  · exact absurd h (by decide)
  · obtain ⟨hs, rfl⟩ | hs := hs
    · exact hne (by simp [(List.append_eq_nil_iff.1 hs.symm).1])
    · simp at hs

/-- A weight is formed for every digit of a number in base sixty. -/
theorem exists_weighted_iff (weight : Int) (sum : Binary64) (xs : List Binary64) :
    (∃ x, weighted weight sum xs = .ok x) ↔ ∀ k < xs.length, (Binary64.ofInt? (60 ^ k * weight)).isSome = true := by
  induction xs generalizing weight sum with
  | nil => exact ⟨fun _ _ h => (nomatch h), fun _ => ⟨sum, rfl⟩⟩
  | cons x xs ih =>
    rw [weighted, List.length_cons, Nat.forall_lt_succ_left, pow_zero, one_mul]
    cases hweight : Binary64.ofInt? weight with
    | none => simp
    | some w =>
      rw [ih]
      simp only [Option.isSome_some, true_and, pow_succ, mul_assoc]

/-- The doubles reach up to the weight of the 174th digit in base sixty. -/
theorem weights_iff (n : Nat) : (∀ k < n, (Binary64.ofInt? (60 ^ k * 1)).isSome = true) ↔ n ≤ 174 := by
  have hheld : ∀ k < 174, (Binary64.ofInt? (60 ^ k * 1)).isSome = true := by decide +kernel
  have hbeyond : (Binary64.ofInt? (60 ^ 174 * 1)).isSome = false := by decide +kernel
  refine ⟨fun h => not_lt.1 fun hn => ?_, fun hn k hk => hheld k (hk.trans_le hn)⟩
  have := h 174 hn
  rw [hbeyond] at this
  cases this

/-- A double without its sign: infinity, `nan`, a decimal, or several ones as the digits of a number in base sixty. -/
inductive IsUnsignedFloat : List Char → Prop
  | infinite : IsUnsignedFloat ".inf".toList
  | nan : IsUnsignedFloat ".nan".toList
  | decimal {s : List Char} (hcolon : ':' ∉ s) (h : IsFloatNumeral s) : IsUnsignedFloat s
  | sixtieths {s : List Char} (hcolon : ':' ∈ s) (h : ∀ f ∈ Text.fields ':' s, IsFloatNumeral f)
    (hlength : (Text.fields ':' s).length ≤ 174) : IsUnsignedFloat s

theorem exists_sixtieths_iff (fs : List (List Char)) :
    (∃ x, (do let parts ← fs.mapM decimal; weighted 1 .zero parts.reverse) = .ok x) ↔
      (∀ f ∈ fs, IsFloatNumeral f) ∧ fs.length ≤ 174 := by
  constructor
  · rintro ⟨x, h⟩
    obtain ⟨parts, hparts, h⟩ := bind_eq_ok.1 h
    have hlength := (mapM_eq_ok.1 hparts).length_eq
    have hweights := (exists_weighted_iff 1 .zero parts.reverse).1 ⟨x, h⟩
    rw [List.length_reverse, ← hlength, weights_iff] at hweights
    exact ⟨fun f hf => (exists_decimal_iff f).1 (exists_mapM_eq_ok.1 ⟨parts, hparts⟩ f hf), hweights⟩
  · rintro ⟨hnumerals, hlength⟩
    obtain ⟨parts, hparts⟩ := exists_mapM_eq_ok.2 fun f hf => (exists_decimal_iff f).2 (hnumerals f hf)
    rw [(mapM_eq_ok.1 hparts).length_eq, ← List.length_reverse, ← weights_iff] at hlength
    obtain ⟨x, hx⟩ := (exists_weighted_iff 1 .zero parts.reverse).2 hlength
    exact ⟨x, bind_eq_ok.2 ⟨parts, hparts, hx⟩⟩

theorem exists_floatMagnitude_iff (s : List Char) : (∃ x, floatMagnitude s = .ok x) ↔ IsUnsignedFloat s := by
  unfold floatMagnitude
  by_cases hinf : s = ".inf".toList
  · rw [if_pos hinf, hinf]
    exact ⟨fun _ => .infinite, fun _ => ⟨_, rfl⟩⟩
  by_cases hnan : s = ".nan".toList
  · rw [if_neg hinf, if_pos hnan, hnan]
    exact ⟨fun _ => .nan, fun _ => ⟨_, rfl⟩⟩
  rw [if_neg hinf, if_neg hnan]
  by_cases hcolon : ':' ∈ s
  · rw [if_pos (List.contains_iff_mem.2 hcolon), exists_sixtieths_iff]
    refine ⟨fun h => .sixtieths hcolon h.1 h.2, fun h => ?_⟩
    cases h with
    | infinite => exact absurd rfl hinf
    | nan => exact absurd rfl hnan
    | decimal hnot _ => exact absurd hcolon hnot
    | sixtieths _ h hlength => exact ⟨h, hlength⟩
  · rw [if_neg fun h => hcolon (List.contains_iff_mem.1 h), exists_decimal_iff]
    refine ⟨.decimal hcolon, fun h => ?_⟩
    cases h with
    | infinite => exact absurd rfl hinf
    | nan => exact absurd rfl hnan
    | decimal _ h => exact h
    | sixtieths hmem _ _ => exact absurd hmem hcolon

theorem not_isUnsignedFloat_nil : ¬ IsUnsignedFloat [] := by
  rw [← exists_floatMagnitude_iff, floatMagnitude, if_neg (by decide), if_neg (by decide)]
  exact mt (exists_decimal_iff []).1 not_isFloatNumeral_nil

/-- Neither underscores nor the case of letters count, and neither does one sign. -/
def IsFloat (text : String) : Prop :=
  IsUnsignedFloat (signOf (Text.lower (String.ofList (text.toList.filter (· ≠ '_')))).toList).2

theorem exists_floatValue_iff (text : String) : (∃ x, floatValue text = .ok x) ↔ IsFloat text := by
  unfold IsFloat floatValue
  generalize (Text.lower (String.ofList (text.toList.filter (· ≠ '_')))).toList = s
  cases s with
  | nil => exact ⟨fun ⟨_, h⟩ => (nomatch h), fun h => absurd h not_isUnsignedFloat_nil⟩
  | cons c s =>
    rw [← exists_floatMagnitude_iff]
    simp only [signed, bind, Except.bind]
    cases floatMagnitude (signOf (c :: s)).2 <;> simp [pure, Except.pure]

/-- The text is one of the words for truth values, whatever the case of its letters. -/
def IsTruth (text : String) : Prop := Text.lower text ∈ ["yes", "no", "true", "false", "on", "off"]

theorem exists_boolValue_iff (text : String) : (∃ b, boolValue text = .ok b) ↔ IsTruth text := by
  unfold IsTruth boolValue
  generalize Text.lower text = word
  have hwords : ∀ words : List (String × Bool), (∃ b, words.lookup word = some b) ↔ word ∈ words.map (·.1) := by
    intro words
    induction words with
    | nil => simp
    | cons e words ih =>
      rw [List.lookup_cons, List.map_cons, List.mem_cons]
      by_cases hword : word = e.1
      · simp [hword]
      · rw [show (word == e.1) = false by simpa using hword, ih]
        simp [hword]
  have htruth : truthWords.map (·.1) = ["yes", "no", "true", "false", "on", "off"] := rfl
  rw [← htruth, ← hwords]
  cases truthWords.lookup word <;> simp

/-- A date, or a date with a time of day, all of whose numbers are in range. A line feed at its end does not count. -/
def IsMoment (text : String) : Prop := ∃ t, Timestamp.IsWritten (Plain.dropFinalBreak text.toList) t ∧ t.InRange

theorem exists_timestampValue_iff (text : String) : (∃ v, timestampValue text = .ok v) ↔ IsMoment text := by
  unfold IsMoment timestampValue
  simp only [← Timestamp.ofText?_eq_some_iff, ← Timestamp.exists_value_iff]
  cases Timestamp.ofText? (Plain.dropFinalBreak text.toList) with
  | none => simp
  | some t =>
    simp only [Option.some.injEq, exists_eq_left']
    cases t.value with
    | error e => simp
    | ok v => cases v <;> simp

/-- The texts that a tag takes. -/
def Tag.Takes : Tag → String → Prop
  | .bool, text => IsTruth text
  | .int, text => IsInteger text
  | .float, text => IsFloat text
  | .timestamp, text => IsMoment text
  | _, _ => True

end NoteVault.Yaml
