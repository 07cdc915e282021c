import NoteVault.Proofs.Base64
import NoteVault.Proofs.Yaml.Restores.Integer

/-!
Octets are read back from a block of base64 lines.
-/
namespace NoteVault.Yaml

open Base64 (isBase64)

theorem toNat_lt_of_isBase64 {c : Char} (h : isBase64 c = true) : c.toNat < 128 := by
  have hcases : isNumeral c = true ∨ c = '/' ∨ c = '=' := by
    rw [isBase64, Base64.sextet?, Bool.or_eq_true, decide_eq_true_eq] at h
    obtain h | h := h
    · split at h
      next hc => exact .inl (by delta isNumeral Char.isAlphanum Char.isAlpha; simp [hc])
      · split at h
        next hc => exact .inl (by delta isNumeral Char.isAlphanum Char.isAlpha; simp [hc])
        · split at h
          next hc => exact .inl (isNumeral_of_isDigit hc)
          · split at h
            next hc => exact .inl (by rw [hc]; decide)
            · split at h
              next hc => exact .inr (.inl hc)
              · cases h
    · exact .inr (.inr h)
  obtain h | rfl | rfl := hcases
  · exact toNat_lt_of_isNumeral h
  all_goals decide

theorem isBase64_class {c : Char} (h : isBase64 c = true) : isFlat c = true ∧ isAcceptable c = true ∧ c ≠ ' ' := by
  have := of_ascii (p := fun c => !isBase64 c || (isFlat c && isAcceptable c && c ≠ ' ')) (toNat_lt_of_isBase64 h)
    (by decide)
  simpa [h, and_assoc] using this

theorem isBlockLine_of_mem_encodeLines {os : List UInt8} {line : List Char} (h : line ∈ Base64.encodeLines os) :
    IsBlockLine line where
  ne_nil := Base64.ne_nil_of_mem_linesOf (by decide) h
  flat c hc := (isBase64_class (Base64.mem_of_mem_encodeLines h hc)).1
  flush hhead := (isBase64_class (Base64.mem_of_mem_encodeLines h (List.mem_of_mem_head? hhead))).2.2 rfl
  acceptable c hc := (isBase64_class (Base64.mem_of_mem_encodeLines h hc)).2.1

theorem binaryValue_ended (os : List UInt8) :
    binaryValue (String.ofList (ended (Base64.encodeLines os))) = .ok os := by
  have hascii : ∀ c ∈ ended (Base64.encodeLines os), decide (c.toNat < 128) = true := by
    intro c hc
    obtain ⟨line, hline, hc⟩ := List.mem_flatMap.1 hc
    rw [decide_eq_true_eq]
    obtain hc | hc := List.mem_append.1 hc
    · exact toNat_lt_of_isBase64 (Base64.mem_of_mem_encodeLines hline hc)
    · rw [List.mem_singleton.1 hc]
      decide
  have hbeyond : beyondAscii (ended (Base64.encodeLines os)) = ((ended (Base64.encodeLines os)).length, []) := by
    rw [beyondAscii, List.takeWhile_eq_self_iff.2 hascii, List.drop_length]
    rfl
  rw [binaryValue, String.toList_ofList, hbeyond, ended, Base64.decode_encodeLines]

/-- Octets are read back. -/
theorem restores_bytes (os : List UInt8) : (Content.ofValue [] [] (.bytes os)).1.Restores (.bytes os) := by
  refine ⟨.binary, some .literal, ended (Base64.encodeLines os), rfl, ⟨rfl, ?_⟩, fun mark => ⟨rfl, ?_⟩⟩
  · change Form.IsReadable (if Form.allowsBlock (ended (Base64.encodeLines os)) && !false then .literal else .double) _
    split
    next hblock =>
      refine ⟨Base64.encodeLines os, fun hnil => ?_, fun line h => isBlockLine_of_mem_encodeLines h, rfl⟩
      rw [hnil] at hblock
      exact absurd hblock (by decide)
    next => trivial
  · rw [Node.scalarValue]
    simp only [Node.head, Node.scalarText, bind, Except.bind, binaryValue_ended, pure, Except.pure]

end NoteVault.Yaml
