import NoteVault.Proofs.Text.Octets
import NoteVault.Text.Utf8

/-!
Octets that are a text: those that the characters of the text are written as, one character after another. Every other
list of octets is refused.
-/
namespace NoteVault.Utf8

open Text (utf8EncodeChar_ne_nil)

section Encoded

variable {c : Char} {b b₁ b₂ b₃ : UInt8} {octets : List UInt8}

theorem toNat_bounds (c : Char) : c.toNat < 0xD800 ∨ 0xDFFF < c.toNat ∧ c.toNat < 0x110000 := c.valid

/-- The octets of a character as numbers. -/
theorem map_utf8EncodeChar (c : Char) : (String.utf8EncodeChar c).map UInt8.toNat =
    if c.toNat < 0x80 then [c.toNat]
    else if c.toNat < 0x800 then [c.toNat / 64 + 192, c.toNat % 64 + 128]
    else if c.toNat < 0x10000 then [c.toNat / 4096 + 224, c.toNat / 64 % 64 + 128, c.toNat % 64 + 128]
    else [c.toNat / 262144 + 240, c.toNat / 4096 % 64 + 128, c.toNat / 64 % 64 + 128, c.toNat % 64 + 128] := by
  have hc := toNat_bounds c
  unfold String.utf8EncodeChar
  unfold Char.toNat at hc ⊢
  dsimp only
  split_ifs <;> simp only [List.map_cons, List.map_nil, UInt8.toNat_ofNat', Nat.reducePow, List.cons.injEq,
    reduceCtorEq, and_true, and_false] <;> omega

theorem utf8EncodeChar_eq_iff : String.utf8EncodeChar c = octets ↔
    octets.map UInt8.toNat = (String.utf8EncodeChar c).map UInt8.toNat := by
  have hinj : Function.Injective (List.map UInt8.toNat) := List.map_injective_iff.2 fun _ _ => UInt8.toNat_inj.1
  rw [hinj.eq_iff, eq_comm]

theorem exists_toNat_eq {n : Nat} (h : n.isValidChar) : ∃ c : Char, c.toNat = n := by
  refine ⟨Char.ofNat n, ?_⟩
  rw [Char.ofNat, dif_pos h]
  rfl

theorem encoded_one_iff : String.utf8EncodeChar c = [b] ↔ b.toNat < 0x80 ∧ c.toNat = b.toNat := by
  rw [utf8EncodeChar_eq_iff, map_utf8EncodeChar]
  split_ifs <;> simp only [List.map_cons, List.map_nil, List.cons.injEq, reduceCtorEq, and_true, and_false,
    false_iff] <;>
    omega

theorem encoded_two_iff : String.utf8EncodeChar c = [b, b₁] ↔ (0xC2 ≤ b.toNat ∧ b.toNat < 0xE0) ∧
    (0x80 ≤ b₁.toNat ∧ b₁.toNat ≤ 0xBF) ∧ c.toNat = b.toNat % 32 * 64 + b₁.toNat % 64 := by
  rw [utf8EncodeChar_eq_iff, map_utf8EncodeChar]
  split_ifs <;> simp only [List.map_cons, List.map_nil, List.cons.injEq, reduceCtorEq, and_true, and_false,
    false_iff] <;>
    omega

theorem encoded_three_iff : String.utf8EncodeChar c = [b, b₁, b₂] ↔ (0xE0 ≤ b.toNat ∧ b.toNat < 0xF0) ∧
    ((if b.toNat = 0xE0 then 0xA0 else 0x80) ≤ b₁.toNat ∧ b₁.toNat ≤ (if b.toNat = 0xED then 0x9F else 0xBF)) ∧
    (0x80 ≤ b₂.toNat ∧ b₂.toNat ≤ 0xBF) ∧ c.toNat = (b.toNat % 16 * 64 + b₁.toNat % 64) * 64 + b₂.toNat % 64 := by
  have hc := toNat_bounds c
  rw [utf8EncodeChar_eq_iff, map_utf8EncodeChar]
  split_ifs <;> simp only [List.map_cons, List.map_nil, List.cons.injEq, reduceCtorEq, and_true, and_false,
    false_iff] <;>
    omega

theorem encoded_four_iff : String.utf8EncodeChar c = [b, b₁, b₂, b₃] ↔ (0xF0 ≤ b.toNat ∧ b.toNat < 0xF5) ∧
    ((if b.toNat = 0xF0 then 0x90 else 0x80) ≤ b₁.toNat ∧ b₁.toNat ≤ (if b.toNat = 0xF4 then 0x8F else 0xBF)) ∧
    (0x80 ≤ b₂.toNat ∧ b₂.toNat ≤ 0xBF) ∧ (0x80 ≤ b₃.toNat ∧ b₃.toNat ≤ 0xBF) ∧
    c.toNat = ((b.toNat % 8 * 64 + b₁.toNat % 64) * 64 + b₂.toNat % 64) * 64 + b₃.toNat % 64 := by
  have hc := toNat_bounds c
  rw [utf8EncodeChar_eq_iff, map_utf8EncodeChar]
  split_ifs <;> simp only [List.map_cons, List.map_nil, List.cons.injEq, reduceCtorEq, and_true, and_false,
    false_iff] <;>
    omega

end Encoded

section Starts

variable {b : UInt8} {rest octets : List UInt8} {n low high code used : Nat} {cs : List Char}

theorem lead_eq_single_iff {b : Nat} : lead b = .single ↔ b < 0x80 := by
  unfold lead
  grind

/-- First octets by the number of octets that follow. -/
theorem lead_eq_many_iff {b : Nat} : lead b = .many n low high ↔
    n = 1 ∧ (0xC2 ≤ b ∧ b < 0xE0) ∧ low = 0x80 ∧ high = 0xBF ∨
    n = 2 ∧ (0xE0 ≤ b ∧ b < 0xF0) ∧ low = (if b = 0xE0 then 0xA0 else 0x80) ∧ high = (if b = 0xED then 0x9F else 0xBF) ∨
    n = 3 ∧ (0xF0 ≤ b ∧ b < 0xF5) ∧ low = (if b = 0xF0 then 0x90 else 0x80) ∧
      high = (if b = 0xF4 then 0x8F else 0xBF) := by
  unfold lead
  grind

theorem following_zero {code' used' : Nat} :
    following code used low high 0 rest = (code', used', none) ↔ code' = code ∧ used' = used := by
  simp [following, eq_comm]

theorem following_succ {code' used' : Nat} : following code used low high (n + 1) rest = (code', used', none) ↔
    ∃ b rest', rest = b :: rest' ∧ (low ≤ b.toNat ∧ b.toNat ≤ high) ∧
      following (code * 64 + b.toNat % 64) (used + 1) 0x80 0xBF n rest' = (code', used', none) := by
  cases rest with
  | nil => simp [following]
  | cons b rest =>
    rw [following]
    split
    next h =>
      have hrange : low ≤ b.toNat ∧ b.toNat ≤ high := by simpa using h
      simp [hrange]
    next h =>
      have hrange : ¬ (low ≤ b.toNat ∧ b.toNat ≤ high) := by simpa using h
      simp only [Prod.mk.injEq, reduceCtorEq, and_false, List.cons.injEq, false_iff]
      rintro ⟨b', rest', ⟨rfl, rfl⟩, h, -⟩
      exact hrange h

/-- Octets with the octets of a code point in front: its code, and how many they are. -/
def Starts (b : UInt8) (rest : List UInt8) (code used : Nat) : Prop :=
  lead b.toNat = .single ∧ code = b.toNat ∧ used = 1 ∨
    ∃ n low high, lead b.toNat = .many n low high ∧
      following (leadBits n b.toNat) 1 low high n rest = (code, used, none)

/-- What is read as one code point is what a character is written as. -/
theorem Starts.exists_char (h : Starts b rest code used) : ∃ c : Char, ∃ rest',
    b :: rest = String.utf8EncodeChar c ++ rest' ∧ code = c.toNat ∧ used = (String.utf8EncodeChar c).length := by
  obtain ⟨hlead, rfl, rfl⟩ | ⟨n, low, high, hlead, hfollowing⟩ := h
  · have hb := lead_eq_single_iff.1 hlead
    obtain ⟨c, hc⟩ := exists_toNat_eq (n := b.toNat) (.inl (by omega))
    have henc := encoded_one_iff.2 ⟨hb, hc⟩
    exact ⟨c, rest, by rw [henc]; rfl, hc.symm, by rw [henc]; rfl⟩
  obtain ⟨rfl, hb, rfl, rfl⟩ | ⟨rfl, hb, rfl, rfl⟩ | ⟨rfl, hb, rfl, rfl⟩ := lead_eq_many_iff.1 hlead
  · obtain ⟨b₁, rest, rfl, h₁, hend⟩ := following_succ.1 hfollowing
    obtain ⟨rfl, rfl⟩ := following_zero.1 hend
    obtain ⟨c, hc⟩ := exists_toNat_eq (n := b.toNat % 32 * 64 + b₁.toNat % 64) (.inl (by omega))
    have henc := encoded_two_iff.2 ⟨hb, h₁, hc⟩
    exact ⟨c, rest, by rw [henc]; rfl, hc.symm, by rw [henc]; rfl⟩
  · obtain ⟨b₁, rest, rfl, h₁, hmore⟩ := following_succ.1 hfollowing
    obtain ⟨b₂, rest, rfl, h₂, hend⟩ := following_succ.1 hmore
    obtain ⟨rfl, rfl⟩ := following_zero.1 hend
    obtain ⟨c, hc⟩ := exists_toNat_eq (n := (b.toNat % 16 * 64 + b₁.toNat % 64) * 64 + b₂.toNat % 64) (by
      unfold Nat.isValidChar
      split_ifs at h₁ <;> omega)
    have henc := encoded_three_iff.2 ⟨hb, h₁, h₂, hc⟩
    exact ⟨c, rest, by rw [henc]; rfl, hc.symm, by rw [henc]; rfl⟩
  · obtain ⟨b₁, rest, rfl, h₁, hmore⟩ := following_succ.1 hfollowing
    obtain ⟨b₂, rest, rfl, h₂, hmore⟩ := following_succ.1 hmore
    obtain ⟨b₃, rest, rfl, h₃, hend⟩ := following_succ.1 hmore
    obtain ⟨rfl, rfl⟩ := following_zero.1 hend
    obtain ⟨c, hc⟩ := exists_toNat_eq
      (n := ((b.toNat % 8 * 64 + b₁.toNat % 64) * 64 + b₂.toNat % 64) * 64 + b₃.toNat % 64)
      (by
        unfold Nat.isValidChar
        split_ifs at h₁ <;> omega)
    have henc := encoded_four_iff.2 ⟨hb, h₁, h₂, h₃, hc⟩
    exact ⟨c, rest, by rw [henc]; rfl, hc.symm, by rw [henc]; rfl⟩

/-- The octets of a character are read as its code. -/
theorem starts_of_encoded {c : Char} {rest' : List UInt8} (h : b :: rest = String.utf8EncodeChar c ++ rest') :
    Starts b rest c.toNat (String.utf8EncodeChar c).length := by
  have hlength := String.length_utf8EncodeChar c
  have hmax := c.utf8Size_le_four
  cases henc : String.utf8EncodeChar c with
  | nil => exact absurd henc (utf8EncodeChar_ne_nil c)
  | cons b' tail =>
    rw [henc, List.cons_append] at h
    obtain ⟨rfl, rfl⟩ := List.cons.inj h
    -- by the number of further octets, of which there are three at most
    match tail, henc with
    | [], henc =>
      obtain ⟨hb, hc⟩ := encoded_one_iff.1 henc
      exact .inl ⟨lead_eq_single_iff.2 hb, hc, rfl⟩
    | [b₁], henc =>
      obtain ⟨hb, h₁, hc⟩ := encoded_two_iff.1 henc
      refine .inr ⟨1, _, _, lead_eq_many_iff.2 (.inl ⟨rfl, hb, rfl, rfl⟩), ?_⟩
      exact following_succ.2 ⟨b₁, rest', rfl, h₁, following_zero.2 ⟨hc, rfl⟩⟩
    | [b₁, b₂], henc =>
      obtain ⟨hb, h₁, h₂, hc⟩ := encoded_three_iff.1 henc
      refine .inr ⟨2, _, _, lead_eq_many_iff.2 (.inr (.inl ⟨rfl, hb, rfl, rfl⟩)), ?_⟩
      exact following_succ.2 ⟨b₁, _, rfl, h₁, following_succ.2 ⟨b₂, rest', rfl, h₂, following_zero.2 ⟨hc, rfl⟩⟩⟩
    | [b₁, b₂, b₃], henc =>
      obtain ⟨hb, h₁, h₂, h₃, hc⟩ := encoded_four_iff.1 henc
      refine .inr ⟨3, _, _, lead_eq_many_iff.2 (.inr (.inr ⟨rfl, hb, rfl, rfl⟩)), ?_⟩
      refine following_succ.2 ⟨b₁, _, rfl, h₁, following_succ.2 ⟨b₂, _, rfl, h₂, ?_⟩⟩
      exact following_succ.2 ⟨b₃, rest', rfl, h₃, following_zero.2 ⟨hc, rfl⟩⟩
    | _ :: _ :: _ :: _ :: _, henc =>
      rw [henc] at hlength
      simp only [List.length_cons] at hlength
      omega

theorem decodeFrom_cons_eq_ok_iff {offset : Nat} : decodeFrom offset 0 (b :: rest) = .ok cs ↔
    ∃ code used cs', Starts b rest code used ∧ cs = Char.ofNat code :: cs' ∧
      decodeFrom (offset + 1) (used - 1) rest = .ok cs' := by
  have hmap : ∀ {x : Except Fault (List Char)} {c : Char},
      x.map (c :: ·) = .ok cs ↔ ∃ cs', cs = c :: cs' ∧ x = .ok cs' := fun {x c} => by
    cases x <;> simp [Except.map, eq_comm, and_comm]
  rw [decodeFrom]
  cases hlead : lead b.toNat with
  | invalid => simp [Starts, hlead]
  | single => simp [Starts, hlead, hmap]
  | many n low high =>
    cases hfollowing : following (leadBits n b.toNat) 1 low high n rest with
    | mk code p =>
      obtain ⟨used, reason⟩ := p
      cases reason with
      | none => simp [Starts, hlead, hfollowing, hmap]
      | some reason => simp [Starts, hlead, hfollowing]

theorem decodeFrom_append {offset : Nat} (tail rest : List UInt8) :
    decodeFrom offset tail.length (tail ++ rest) = decodeFrom (offset + tail.length) 0 rest := by
  induction tail generalizing offset with
  | nil => rfl
  | cons b tail ih =>
    rw [List.cons_append, List.length_cons, decodeFrom, ih]
    congr 1
    omega

/-- The further octets of a character are passed over. -/
theorem decodeFrom_behind {c : Char} {rest' : List UInt8} {offset : Nat}
    (h : b :: rest = String.utf8EncodeChar c ++ rest') :
    decodeFrom offset ((String.utf8EncodeChar c).length - 1) rest =
      decodeFrom (offset + ((String.utf8EncodeChar c).length - 1)) 0 rest' := by
  cases henc : String.utf8EncodeChar c with
  | nil => exact absurd henc (utf8EncodeChar_ne_nil c)
  | cons b' tail =>
    rw [henc, List.cons_append] at h
    obtain ⟨rfl, rfl⟩ := List.cons.inj h
    exact decodeFrom_append tail rest'

end Starts

theorem decodeFrom_eq_ok_iff {octets : List UInt8} {cs : List Char} {offset : Nat} :
    decodeFrom offset 0 octets = .ok cs ↔ octets = cs.flatMap String.utf8EncodeChar := by
  induction cs generalizing octets offset with
  | nil =>
    cases octets with
    | nil => simp [decodeFrom]
    | cons b rest => simp [decodeFrom_cons_eq_ok_iff]
  | cons c cs ih =>
    rw [List.flatMap_cons]
    constructor
    · intro h
      cases octets with
      | nil => cases h
      | cons b rest =>
        obtain ⟨code, used, cs', hstarts, hcs, hrest⟩ := decodeFrom_cons_eq_ok_iff.1 h
        obtain ⟨d, after, hoctets, rfl, rfl⟩ := hstarts.exists_char
        rw [Char.ofNat_toNat] at hcs
        obtain ⟨rfl, rfl⟩ := List.cons.inj hcs
        rw [decodeFrom_behind hoctets, ih] at hrest
        rw [hoctets, hrest]
    · intro h
      cases octets with
      | nil => exact absurd (List.append_eq_nil_iff.1 h.symm).1 (utf8EncodeChar_ne_nil c)
      | cons b rest =>
        refine decodeFrom_cons_eq_ok_iff.2 ⟨_, _, cs, starts_of_encoded h, by rw [Char.ofNat_toNat], ?_⟩
        rw [decodeFrom_behind h, ih]

/-- Octets are read as the characters that they are written for, and as nothing else. -/
theorem decode_eq_ok_iff {octets : List UInt8} {cs : List Char} :
    decode octets = .ok cs ↔ octets = cs.flatMap String.utf8EncodeChar :=
  decodeFrom_eq_ok_iff

/-- What is refused is no text. -/
theorem ne_of_decode_error {octets : List UInt8} {fault : Fault} (h : decode octets = .error fault) (cs : List Char) :
    octets ≠ cs.flatMap String.utf8EncodeChar := fun htext => by
  cases h.symm.trans (decode_eq_ok_iff.2 htext)

theorem encode_inj {as bs : List Char} (h : as.flatMap String.utf8EncodeChar = bs.flatMap String.utf8EncodeChar) :
    as = bs :=
  Except.ok.inj ((decode_eq_ok_iff.2 rfl).symm.trans (decode_eq_ok_iff.2 h))

end NoteVault.Utf8
