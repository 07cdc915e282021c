import Mathlib.Tactic
import NoteVault.Base64

/-!
Octets are read back from their base64 text, also from lines of it.
-/
namespace NoteVault.Base64

/-- Characters of the alphabet, and padding. -/
def isBase64 (c : Char) : Bool := (sextet? c).isSome || c = '='

theorem sextet?_alphabet {n : Nat} (h : n < 64) : sextet? (alphabet n) = some n ∧ alphabet n ≠ '=' := by
  have : ∀ n < 64, sextet? (alphabet n) = some n ∧ alphabet n ≠ '=' := by decide
  exact this n h

theorem isBase64_alphabet {n : Nat} (h : n < 64) : isBase64 (alphabet n) = true := by
  rw [isBase64, (sextet?_alphabet h).1]
  rfl

theorem decodeFrom_alphabet {n : Nat} (h : n < 64) (group : List Nat) (pads count : Nat) (rest : List Char) :
    decodeFrom group pads count (alphabet n :: rest) =
      if (group ++ [n]).length = 4 then (decodeFrom [] 0 (count + 1) rest).map (octets (group ++ [n]) ++ ·)
      else decodeFrom (group ++ [n]) 0 (count + 1) rest := by
  obtain ⟨hsextet, hne⟩ := sextet?_alphabet h
  rw [decodeFrom, if_neg hne, hsextet]

theorem ofNat_eq {n : Nat} {a : UInt8} (h : n = a.toNat) : UInt8.ofNat n = a := by
  rw [h]
  exact UInt8.ofNat_toNat

theorem decodeFrom_encodeGroups (os : List UInt8) (count : Nat) : decodeFrom [] 0 count (encodeGroups os) = .ok os := by
  induction os using encodeGroups.induct generalizing count with
  | case1 => rfl
  | case2 a =>
    have ha := a.toNat_lt
    rw [encodeGroups, decodeFrom_alphabet (by omega), if_neg (by simp), decodeFrom_alphabet (by omega),
      if_neg (by simp), decodeFrom, if_pos rfl, if_pos (by simp), if_neg (by simp), decodeFrom, if_pos rfl,
        if_pos (by simp), if_pos (by simp)]
    simp only [octets, List.nil_append, List.cons_append]
    rw [ofNat_eq (a := a) (by omega)]
  | case3 a b =>
    have ha := a.toNat_lt
    have hb := b.toNat_lt
    rw [encodeGroups, decodeFrom_alphabet (by omega), if_neg (by simp), decodeFrom_alphabet (by omega),
      if_neg (by simp), decodeFrom_alphabet (by omega), if_neg (by simp), decodeFrom, if_pos rfl, if_pos (by simp),
        if_pos (by simp)]
    simp only [octets, List.nil_append, List.cons_append]
    rw [ofNat_eq (a := a) (by omega), ofNat_eq (a := b) (by omega)]
  | case4 a b c rest ih =>
    have ha := a.toNat_lt
    have hb := b.toNat_lt
    have hc := c.toNat_lt
    rw [encodeGroups, decodeFrom_alphabet (by omega), if_neg (by simp), decodeFrom_alphabet (by omega),
      if_neg (by simp), decodeFrom_alphabet (by omega), if_neg (by simp), decodeFrom_alphabet (by omega),
        if_pos (by simp), ih]
    simp only [Except.map, octets, List.nil_append, List.cons_append]
    rw [ofNat_eq (a := a) (by omega), ofNat_eq (a := b) (by omega), ofNat_eq (a := c) (by omega)]

/-- Characters outside the alphabet are passed over. -/
theorem decodeFrom_filter (s : List Char) (group : List Nat) (pads count : Nat) :
    decodeFrom group pads count (s.filter isBase64) = decodeFrom group pads count s := by
  induction s generalizing group pads count with
  | nil => rfl
  | cons c s ih =>
    cases hc : isBase64 c with
    | true =>
      rw [List.filter_cons_of_pos hc, decodeFrom, decodeFrom]
      simp only [ih]
    | false =>
      simp only [isBase64, Bool.or_eq_false_iff, Option.isSome_eq_false_iff, Option.isNone_iff_eq_none,
        decide_eq_false_iff_not] at hc
      rw [List.filter_cons_of_neg (by simp [isBase64, hc]), ih, decodeFrom, if_neg hc.2, hc.1]

theorem isBase64_of_mem_encodeGroups {os : List UInt8} {c : Char} (h : c ∈ encodeGroups os) : isBase64 c = true := by
  induction os using encodeGroups.induct with
  | case1 => cases h
  | case2 a =>
    have ha := a.toNat_lt
    simp only [encodeGroups, List.mem_cons, List.not_mem_nil, or_false] at h
    obtain rfl | rfl | rfl | rfl := h
    exacts [isBase64_alphabet (by omega), isBase64_alphabet (by omega), rfl, rfl]
  | case3 a b =>
    have ha := a.toNat_lt
    have hb := b.toNat_lt
    simp only [encodeGroups, List.mem_cons, List.not_mem_nil, or_false] at h
    obtain rfl | rfl | rfl | rfl := h
    exacts [isBase64_alphabet (by omega), isBase64_alphabet (by omega), isBase64_alphabet (by omega), rfl]
  | case4 a b c rest ih =>
    have ha := a.toNat_lt
    have hb := b.toNat_lt
    have hc := c.toNat_lt
    simp only [encodeGroups, List.mem_cons] at h
    obtain rfl | rfl | rfl | rfl | h := h
    exacts [isBase64_alphabet (by omega), isBase64_alphabet (by omega), isBase64_alphabet (by omega),
      isBase64_alphabet (by omega), ih h]

theorem flatten_linesOf {width fuel : Nat} {s : List Char} (hwidth : 0 < width) (h : s.length ≤ fuel) :
    (linesOf width fuel s).flatten = s := by
  induction fuel generalizing s with
  | zero => rw [List.length_eq_zero_iff.1 (Nat.le_zero.1 h)]; rfl
  | succ fuel ih =>
    cases s with
    | nil => rfl
    | cons c s =>
      rw [linesOf, List.flatten_cons, ih (by simp only [List.length_drop, List.length_cons] at h ⊢; omega),
        List.take_append_drop]
      simp

theorem ne_nil_of_mem_linesOf {width fuel : Nat} {s line : List Char} (hwidth : 0 < width)
    (h : line ∈ linesOf width fuel s) :
    line ≠ [] := by
  induction fuel generalizing s with
  | zero => cases h
  | succ fuel ih =>
    cases s with
    | nil => cases h
    | cons c s =>
      rw [linesOf] at h
      · obtain rfl | h := List.mem_cons.1 h
        · simp only [ne_eq, List.take_eq_nil_iff, not_or]
          exact ⟨by omega, by simp⟩
        · exact ih h
      · simp

theorem flatten_encodeLines (os : List UInt8) : (encodeLines os).flatten = encodeGroups os :=
  flatten_linesOf (by decide) le_rfl

theorem mem_of_mem_encodeLines {os : List UInt8} {line : List Char} (h : line ∈ encodeLines os) {c : Char}
    (hc : c ∈ line) :
    isBase64 c = true :=
  isBase64_of_mem_encodeGroups (flatten_encodeLines os ▸ List.mem_flatten.2 ⟨line, h, hc⟩)

/-- Octets are read back from the lines of their text. -/
theorem decode_encodeLines (os : List UInt8) :
    decode ((encodeLines os).flatMap fun line => line ++ ['\n']) = .ok os := by
  have hfilter : ∀ {lines : List (List Char)}, (∀ line ∈ lines, ∀ c ∈ line, isBase64 c = true) →
      (lines.flatMap fun line => line ++ ['\n']).filter isBase64 = lines.flatten := by
    intro lines h
    induction lines with
    | nil => rfl
    | cons line lines ih =>
      rw [List.flatMap_cons, List.filter_append, List.filter_append, List.flatten_cons,
        List.filter_eq_self.2 (h line List.mem_cons_self), ih fun l hl => h l (List.mem_cons_of_mem _ hl)]
      simp [isBase64, sextet?]
  rw [decode, ← decodeFrom_filter, hfilter fun line hline c hc => mem_of_mem_encodeLines hline hc, flatten_encodeLines,
    decodeFrom_encodeGroups]

end NoteVault.Base64
