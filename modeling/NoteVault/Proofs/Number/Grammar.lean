import Mathlib.Data.List.TakeWhile
import NoteVault.Proofs.Number.Reading

/-!
Which texts are read as numbers: digits of a base with a sign, and decimals with a point and an exponent.
-/
namespace NoteVault.Number

/-- An optional sign. -/
def IsSign (s : List Char) : Prop := s = [] ∨ s = ['+'] ∨ s = ['-']

theorem exists_signOf (s : List Char) : ∃ sign, IsSign sign ∧ s = sign ++ (signOf s).2 := by
  unfold signOf
  split
  · exact ⟨['-'], .inr (.inr rfl), rfl⟩
  · exact ⟨['+'], .inr (.inl rfl), rfl⟩
  · exact ⟨[], .inl rfl, rfl⟩

theorem signOf_append {sign s : List Char} (h : IsSign sign) (hs : s.head? ≠ some '+' ∧ s.head? ≠ some '-') :
    (signOf (sign ++ s)).2 = s := by
  obtain rfl | rfl | rfl := h
  · rw [List.nil_append, signOf.eq_def]
    split <;> simp_all
  · rfl
  · rfl

/-- A digit of a base. -/
def IsDigitOf (base : Nat) (c : Char) : Prop := ∃ d < base, digitOf? c = some d

theorem exists_inBase?_iff {base : Nat} {s : List Char} :
    (∃ n, inBase? base s = some n) ↔ s ≠ [] ∧ ∀ c ∈ s, IsDigitOf base c := by
  have hdigits : ∀ s : List Char, (∃ ds, s.mapM digitOf? = some ds ∧ ds.all (· < base) = true) ↔
      ∀ c ∈ s, IsDigitOf base c := by
    intro s
    induction s with
    | nil => simp
    | cons c s ih =>
      rw [List.forall_mem_cons, ← ih, List.mapM_cons]
      constructor
      · rintro ⟨ds, hds, hall⟩
        obtain ⟨d, hd, hds⟩ := Option.bind_eq_some_iff.1 hds
        obtain ⟨more, hmore, hds⟩ := Option.bind_eq_some_iff.1 hds
        cases hds
        rw [List.all_cons, Bool.and_eq_true, decide_eq_true_eq] at hall
        exact ⟨⟨d, hall.1, hd⟩, more, hmore, hall.2⟩
      · rintro ⟨⟨d, hlt, hd⟩, more, hmore, hall⟩
        exact ⟨d :: more, by simp [hd, hmore], by simp [hlt, hall]⟩
  rw [← hdigits]
  cases s with
  | nil => simp [inBase?]
  | cons c s =>
    simp only [inBase?, List.isEmpty_cons, Bool.false_eq_true, if_false, ne_eq, reduceCtorEq, not_false_eq_true,
      true_and, Option.bind_eq_bind, Option.bind_eq_some_iff]
    constructor
    · rintro ⟨n, ds, hds, h⟩
      split at h
      next hall => exact ⟨ds, hds, hall⟩
      next => cases h
    · rintro ⟨ds, hds, hall⟩
      exact ⟨_, ds, hds, if_pos hall⟩

/-- An exponent with an optional sign, or none. -/
def IsExponent (s : List Char) : Prop :=
  s = [] ∨ ∃ e sign ds, s = e :: (sign ++ ds) ∧ (e = 'e' ∨ e = 'E') ∧ IsSign sign ∧ ds ≠ [] ∧
    ∀ d ∈ ds, d.isDigit = true

theorem head?_of_digits {ds : List Char} (h : ∀ d ∈ ds, d.isDigit = true) :
    ds.head? ≠ some '+' ∧ ds.head? ≠ some '-' := by
  cases ds with
  | nil => simp
  | cons d ds =>
    have hd := h d List.mem_cons_self
    constructor <;> rintro heq <;> cases heq <;> cases hd

theorem exists_exponentOf?_iff {s : List Char} : (∃ n, exponentOf? s = some n) ↔ IsExponent s := by
  cases s with
  | nil => exact ⟨fun _ => .inl rfl, fun _ => ⟨0, rfl⟩⟩
  | cons e rest =>
    have hread : (∃ n, exponentOf? (e :: rest) = some n) ↔
        (e = 'e' ∨ e = 'E') ∧ (signOf rest).2 ≠ [] ∧ ∀ d ∈ (signOf rest).2, d.isDigit = true := by
      simp only [exponentOf?]
      by_cases he : e = 'e' ∨ e = 'E'
      · by_cases hds : ((signOf rest).2.isEmpty || !(signOf rest).2.all Char.isDigit) = true
        · rw [if_pos he, if_pos hds]
          simp_all [or_iff_not_imp_left]
        · rw [if_pos he, if_neg hds]
          simp_all
      · simp [he]
    rw [hread]
    constructor
    · rintro ⟨he, hne, hds⟩
      obtain ⟨sign, hsign, hrest⟩ := exists_signOf rest
      exact .inr ⟨e, sign, _, by rw [← hrest], he, hsign, hne, hds⟩
    · rintro (h | ⟨_, sign, ds, h, he, hsign, hne, hds⟩)
      · cases h
      · cases h
        rw [signOf_append hsign (head?_of_digits hds)]
        exact ⟨he, hne, hds⟩

/-- Digits that may have a point among them, and an exponent behind them. -/
def IsDecimal (s : List Char) : Prop := ∃ whole part exponent,
  (s = whole ++ exponent ∧ part = [] ∨ s = whole ++ '.' :: (part ++ exponent)) ∧ (∀ d ∈ whole, d.isDigit = true) ∧
    (∀ d ∈ part, d.isDigit = true) ∧ whole ++ part ≠ [] ∧ IsExponent exponent

theorem IsExponent.head?_eq {s : List Char} (h : IsExponent s) :
    s.head? = none ∨ s.head? = some 'e' ∨ s.head? = some 'E' := by
  obtain rfl | ⟨e, sign, ds, rfl, rfl | rfl, -⟩ := h <;> simp

theorem span_digits {ds t : List Char} (h : ∀ d ∈ ds, d.isDigit = true) (ht : t.head?.any Char.isDigit = false) :
    (ds ++ t).takeWhile Char.isDigit = ds ∧ (ds ++ t).dropWhile Char.isDigit = t := by
  rw [List.takeWhile_append_of_pos h, List.dropWhile_append_of_pos h]
  cases t with
  | nil => simp
  | cons c t =>
    have hc : c.isDigit = false := by simpa using ht
    simp [hc]

theorem isDecimal_of_readDecimal? {negative : Bool} {s : List Char} {x : Binary64}
    (h : readDecimal? negative s = some x) : IsDecimal s := by
  have hs : s = s.takeWhile Char.isDigit ++ s.dropWhile Char.isDigit := List.takeWhile_append_dropWhile.symm
  have hwhole : ∀ d ∈ s.takeWhile Char.isDigit, d.isDigit = true := fun _ => List.mem_takeWhile_imp
  unfold readDecimal? at h
  generalize s.takeWhile Char.isDigit = whole at *
  generalize s.dropWhile Char.isDigit = rest at *
  have hexponent : ∀ {part exponent : List Char},
      (do if whole.isEmpty && part.isEmpty then failure
          let e ← exponentOf? exponent
          some (Binary64.ofDecimal negative (decimalValue (whole ++ part)) (e - part.length))) = some x →
      whole ++ part ≠ [] ∧ IsExponent exponent := by
    intro part exponent h
    split at h
    · cases h
    next hne =>
      obtain ⟨n, hn, -⟩ := Option.bind_eq_some_iff.1 h
      exact ⟨by simpa using hne, exists_exponentOf?_iff.1 ⟨n, hn⟩⟩
  dsimp only at h
  split at h
  next more =>
    obtain ⟨hne, hexp⟩ := hexponent h
    exact ⟨whole, more.takeWhile Char.isDigit, more.dropWhile Char.isDigit,
      .inr (by rw [hs, List.takeWhile_append_dropWhile]), hwhole, fun _ => List.mem_takeWhile_imp, hne, hexp⟩
  next =>
    obtain ⟨hne, hexp⟩ := hexponent h
    exact ⟨whole, [], rest, .inl ⟨hs, rfl⟩, hwhole, by simp, hne, hexp⟩

theorem exists_readDecimal?_of_isDecimal (negative : Bool) {s : List Char} (h : IsDecimal s) :
    ∃ x, readDecimal? negative s = some x := by
  obtain ⟨whole, part, exponent, hs, hwhole, hpart, hne, hexp⟩ := h
  obtain ⟨n, hn⟩ := exists_exponentOf?_iff.2 hexp
  have hstop : exponent.head?.any Char.isDigit = false ∧ exponent.head? ≠ some '.' := by
    obtain h | h | h := hexp.head?_eq <;> rw [h] <;> decide
  have hdigits : ¬ (whole.isEmpty && part.isEmpty) = true := by simpa using hne
  refine ⟨Binary64.ofDecimal negative (decimalValue (whole ++ part)) (n - part.length), ?_⟩
  obtain ⟨rfl, rfl⟩ | rfl := hs
  · obtain ⟨htake, hdrop⟩ := span_digits hwhole hstop.1
    have hrest : ∀ more, exponent ≠ '.' :: more := fun more h => hstop.2 (by rw [h]; rfl)
    rw [readDecimal?, htake, hdrop]
    split
    next part rest heq =>
      split at heq
      next more => exact absurd rfl (hrest more)
      next =>
        cases heq
        rw [if_neg hdigits, hn]
        rfl
  · obtain ⟨htake, hdrop⟩ := span_digits hwhole (t := '.' :: (part ++ exponent)) rfl
    obtain ⟨htake', hdrop'⟩ := span_digits hpart hstop.1
    rw [readDecimal?, htake, hdrop]
    simp only [htake', hdrop']
    rw [if_neg hdigits, hn]
    rfl

theorem exists_readDecimal?_iff (negative : Bool) {s : List Char} :
    (∃ x, readDecimal? negative s = some x) ↔ IsDecimal s :=
  ⟨fun h => h.elim fun _ => isDecimal_of_readDecimal?, exists_readDecimal?_of_isDecimal negative⟩

/-- What a double may be besides a decimal, in lower case. -/
def floatWords : List (List Char) := [['i', 'n', 'f'], ['i', 'n', 'f', 'i', 'n', 'i', 't', 'y'], ['n', 'a', 'n']]

theorem IsDecimal.head?_ne {s : List Char} (h : IsDecimal s) : s.head? ≠ some '+' ∧ s.head? ≠ some '-' := by
  obtain ⟨whole, part, exponent, hs, hwhole, hpart, hne, hexp⟩ := h
  cases whole with
  | cons d whole =>
    have hhead : s.head? = some d := by obtain ⟨rfl, -⟩ | rfl := hs <;> rfl
    rw [hhead]
    exact head?_of_digits hwhole
  | nil =>
    obtain ⟨-, rfl⟩ | rfl := hs
    · exact absurd rfl hne
    · exact ⟨by simp, by simp⟩

theorem head?_ne_of_floatWord {s : List Char} (h : s.map Char.toLower ∈ floatWords) :
    s.head? ≠ some '+' ∧ s.head? ≠ some '-' := by
  have hall : ∀ word ∈ floatWords, word.head? ≠ some '+' ∧ word.head? ≠ some '-' := by decide
  have hhead := hall _ h
  rw [List.head?_map] at hhead
  constructor
  · intro hs
    rw [hs] at hhead
    exact hhead.1 rfl
  · intro hs
    rw [hs] at hhead
    exact hhead.2 rfl

/-- Underscores between digits do not count. -/
theorem exists_readFloat?_iff {s : List Char} : (∃ x, readFloat? s = some x) ↔
    ∃ sign body, joinDigits Char.isDigit false (plainForm s) = some (sign ++ body) ∧ IsSign sign ∧
      (body.map Char.toLower ∈ floatWords ∨ IsDecimal body) := by
  have hread : (∃ x, readFloat? s = some x) ↔ ∃ joined, joinDigits Char.isDigit false (plainForm s) = some joined ∧
      ((signOf joined).2.map Char.toLower ∈ floatWords ∨ IsDecimal (signOf joined).2) := by
    unfold readFloat?
    cases joinDigits Char.isDigit false (plainForm s) with
    | none => exact ⟨fun ⟨_, h⟩ => (nomatch h), fun ⟨_, h, _⟩ => (nomatch h)⟩
    | some joined =>
      simp only [Option.bind_eq_bind, Option.bind_some, Option.some.injEq, exists_eq_left']
      rw [← exists_readDecimal?_iff (signOf joined).1]
      generalize hword : (signOf joined).2.map Char.toLower = word
      by_cases hinf : word = "inf".toList ∨ word = "infinity".toList
      · rw [if_pos hinf]
        exact ⟨fun _ => .inl (by obtain rfl | rfl := hinf <;> decide), fun _ => ⟨_, rfl⟩⟩
      rw [if_neg hinf]
      by_cases hnan : word = "nan".toList
      · rw [if_pos hnan]
        exact ⟨fun _ => .inl (by subst hnan; decide), fun _ => ⟨_, rfl⟩⟩
      rw [if_neg hnan]
      have hnot : word ∉ floatWords := by
        rintro hmem
        simp only [floatWords, List.mem_cons, List.not_mem_nil, or_false] at hmem
        obtain rfl | rfl | rfl := hmem
        · exact hinf (.inl rfl)
        · exact hinf (.inr rfl)
        · exact hnan rfl
      exact (or_iff_right hnot).symm
  rw [hread]
  constructor
  · rintro ⟨joined, hjoined, h⟩
    obtain ⟨sign, hsign, hs⟩ := exists_signOf joined
    exact ⟨sign, _, hs ▸ hjoined, hsign, h⟩
  · rintro ⟨sign, body, hjoined, hsign, h⟩
    refine ⟨_, hjoined, ?_⟩
    rwa [signOf_append hsign (h.elim head?_ne_of_floatWord IsDecimal.head?_ne)]

end NoteVault.Number
