import Mathlib.Data.List.Lex
import Mathlib.Data.String.Basic
import NoteVault.Folder.Notes
import NoteVault.Proofs.Text.Joined

/-!
Paths of files: which of them are those of notes, their order, and their texts, which tell them apart.
-/
namespace NoteVault

namespace FilePath

variable {p q : FilePath}

/-- The last name ends as a note's does, and none of the folders is hidden. -/
def IsNotePath (p : FilePath) : Prop :=
  ∃ (folders : List String) (name : String), p = folders ++ [name] ∧ ".md".toList <:+ name.toList ∧
    ∀ folder ∈ folders, folder.toList.head? ≠ some '.'

theorem startsWith_dot_iff {name : String} : name.startsWith "." = true ↔ name.toList.head? = some '.' := by
  rw [String.startsWith_string_iff]
  cases name.toList <;> simp [List.cons_prefix_cons, eq_comm]

theorem isNote_iff : p.isNote = true ↔ IsNotePath p := by
  have hend : ∀ name : String, name.endsWith ".md" = true ↔ ".md".toList <:+ name.toList := fun name => by
    rw [← String.endsWith_toSlice, String.Slice.endsWith_string_iff, String.copy_toSlice]
  obtain rfl | ⟨folders, name, rfl⟩ := p.eq_nil_or_concat'
  · simp [isNote, IsNotePath, hend]
  · have hfolders : folders.all (!·.startsWith ".") = true ↔ ∀ folder ∈ folders, folder.toList.head? ≠ some '.' := by
      rw [List.all_eq_true]
      refine forall₂_congr fun folder _ => ?_
      rw [Bool.not_eq_true', ← Bool.not_eq_true, startsWith_dot_iff]
    rw [isNote, List.getLastD_concat, List.dropLast_concat, Bool.and_eq_true, hend, hfolders]
    constructor
    · rintro ⟨hname, hvisible⟩
      exact ⟨folders, name, rfl, hname, hvisible⟩
    · rintro ⟨folders', name', h, hname, hvisible⟩
      obtain ⟨rfl, hlast⟩ := List.append_inj' h rfl
      obtain rfl := List.singleton_inj.1 hlast
      exact ⟨hname, hvisible⟩

/-- The order of paths is that of their names, one after another. -/
theorem le_iff_le : p.le q = true ↔ p ≤ q := by
  rw [← not_lt]
  induction p generalizing q with
  | nil => simp [le]
  | cons a p ih =>
    cases q with
    | nil => simp [le]
    | cons b q =>
      rw [le, List.cons_lt_cons_iff, Bool.or_eq_true, Bool.and_eq_true, ih, decide_eq_true_iff, decide_eq_true_iff]
      obtain hlt | rfl | hlt := lt_trichotomy a b
      · simp [hlt, hlt.not_gt, hlt.ne']
      · simp
      · simp [hlt, hlt.not_gt, hlt.ne']

theorem le_trans {p q r : FilePath} (hpq : p.le q = true) (hqr : q.le r = true) : p.le r = true :=
  le_iff_le.2 ((le_iff_le.1 hpq).trans (le_iff_le.1 hqr))

theorem le_total (p q : FilePath) : (p.le q || q.le p) = true := by
  rw [Bool.or_eq_true, le_iff_le, le_iff_le]
  exact LinearOrder.le_total p q

theorem lt_of_le_of_ne (h : p.le q = true) (hne : p ≠ q) : p < q := (le_iff_le.1 h).lt_of_ne hne

/-- Names without slashes can be told from the path's text. -/
theorem text_inj (hp : ∀ name ∈ p, '/' ∉ name.toList) (hq : ∀ name ∈ q, '/' ∉ name.toList) (hpn : p ≠ []) (hqn : q ≠ [])
    (h : p.text = q.text) : p = q :=
  Text.intercalate_inj rfl hp hq hpn hqn h

end FilePath

end NoteVault
