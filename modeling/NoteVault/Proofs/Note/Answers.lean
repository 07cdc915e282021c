import NoteVault.Index
import NoteVault.Index.UnknownTypes
import NoteVault.Proofs.Failure
import NoteVault.Proofs.Note.Cycle
import NoteVault.Proofs.Note.Rewrite
import NoteVault.Proofs.Yaml.Read

/-!
What is answered for each text. Front matter that is missing or at fault is an issue; only a value that cannot be
formed has no answer, and with it none of the steps has one that read the text.
-/
namespace NoteVault

variable (r : Registry) (config : Config)

/-- An index is built when every note is decoded and the integers that its issues show can be written. -/
theorem VaultIndex.exists_build (files : List (String × String)) : (∃ i, build r config files = .ok i) ↔
    ∀ file ∈ files, ∃ note, Note.parse file.2 = .ok note ∧ note.data.any (r.isLongAt config) = false := by
  rw [build, exists_map, exists_mapM_eq_ok]
  refine forall₂_congr fun file _ => ?_
  unfold readNote
  cases Note.parse file.2 with
  | error e => simp [Except.mapError, bind, Except.bind]
  | ok note =>
    cases hlong : note.data.any (r.isLongAt config) <;>
      simp [Except.mapError, bind, Except.bind, pure, Except.pure, hlong, throw, throwThe, MonadExceptOf.throw]

namespace Note

end Note

end NoteVault
