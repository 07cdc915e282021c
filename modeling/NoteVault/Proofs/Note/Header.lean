import NoteVault.Proofs.Note.Body
import NoteVault.Proofs.Yaml.Node.Document

/-!
A header that is written for front matter, and the note that is read back from it.
-/
namespace NoteVault.Note

open Yaml (ReadsBack placedEntries)

theorem parse_of_split {content header body : String} {v : Value} {m : Mapping}
    (hsplit : split content = some (header, body))
    (hread : Yaml.read header = .ok v) (hm : mappingOf? v = some m) :
    parse content = .ok ⟨some (Value.normalEntries m), body, [], header⟩ := by
  have hopening : (opening? content.toList).isNone = false := by
    cases h : opening? content.toList with
    | none => rw [split, h] at hsplit; exact absurd hsplit (by simp)
    | some _ => rfl
  rw [parse, hopening]
  simp only [Bool.false_eq_true, if_false, hsplit, hread, hm]

/-- Nothing is trimmed from the header of a mapping. -/
def KeepsEnds (m : Mapping) : Prop :=
  Text.trimBy Text.isBlank (Yaml.Content.writeAll (Yaml.Content.ofMapping m)) =
    Yaml.Content.writeAll (Yaml.Content.ofMapping m)

/-- A header that is written for a mapping, with a body behind it, is read as the mapping, its objects being at
different places. -/
theorem parse_assemble {m n : Mapping} {references : List String} {body : String} (hn : ReadsBack (.map n))
    (hends : KeepsEnds n) (hbody : atLineEnd body.toList = true) (hs : stringify m references = .ok (headerText n)) :
    ∃ ρ text, Function.Injective ρ ∧ parse (assemble (headerText n) body) =
      .ok ⟨some (Value.normalEntries (placedEntries (Yaml.Content.censusEntries ⟨[], []⟩ n).repeated ρ n)), body, [],
        text⟩ := by
  have hsplit := split_assemble hbody (no_closing_line_stringify hs)
  by_cases hne : n = []
  · subst hne
    exact ⟨id, "", Function.injective_id, parse_of_split hsplit (v := .null) (by decide) rfl⟩
  · have hheader : headerText n = String.ofList (Yaml.Content.writeAll (Yaml.Content.ofMapping n)) := by
      rw [headerText, if_neg (by simpa using hne), Text.trim, String.toList_ofList, hends]
    obtain ⟨ρ, hinjective, hread⟩ := Yaml.read_writeAll hne hn
    refine ⟨ρ, _, hinjective, parse_of_split (v := .map _) hsplit ?_ rfl⟩
    have hnonempty : headerText n ≠ "" := by
      intro hempty
      rw [hheader] at hempty
      rw [String.ofList_append, hempty, show Yaml.read ("" ++ String.ofList ['\n']) = .ok .null by decide] at hread
      exact absurd (Except.ok.inj hread) (by simp)
    rw [if_neg hnonempty, hheader, ← hread, String.ofList_append]

end NoteVault.Note
