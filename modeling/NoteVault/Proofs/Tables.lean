import NoteVault.Graph
import NoteVault.Proofs.Index.Conflicts
import NoteVault.Proofs.Note.Cycle
import NoteVault.Proofs.Text.Octets
import NoteVault.Tables

/-!
The tables of an index tell what the index, its graph and its conflicts tell, and a session tells it of the last index
that it was given: no row of an earlier one is left.
-/
namespace NoteVault

namespace Text

theorem lex_trans {a b c : String} {p q r : Prop} (hab : a < b ∨ a = b ∧ p) (hbc : b < c ∨ b = c ∧ q) (h : p → q → r) :
    a < c ∨ a = c ∧ r := by
  obtain hab | ⟨rfl, hp⟩ := hab <;> obtain hbc | ⟨rfl, hq⟩ := hbc
  · exact .inl (String.lt_trans hab hbc)
  · exact .inl hab
  · exact .inl hbc
  · exact .inr ⟨rfl, h hp hq⟩

theorem lex_total (a b : String) {p q : Prop} (h : p ∨ q) : (a < b ∨ a = b ∧ p) ∨ (b < a ∨ b = a ∧ q) := by
  by_cases hab : a < b
  · exact .inl (.inl hab)
  by_cases hba : b < a
  · exact .inr (.inl hba)
  obtain rfl : a = b := String.le_antisymm (String.not_lt.1 hba) (String.not_lt.1 hab)
  exact h.imp (fun hp => .inr ⟨rfl, hp⟩) fun hq => .inr ⟨rfl, hq⟩

end Text

namespace Reference

theorem le_iff {a b : Reference} : a.le b = true ↔
    a.source < b.source ∨ a.source = b.source ∧ (a.target < b.target ∨ a.target = b.target ∧ a.field ≤ b.field) := by
  simp [le, Text.le_iff]

theorem le_trans {a b c : Reference} (hab : a.le b = true) (hbc : b.le c = true) : a.le c = true := by
  rw [le_iff] at *
  exact Text.lex_trans hab hbc fun hab hbc => Text.lex_trans hab hbc String.le_trans

theorem le_total (a b : Reference) : (a.le b || b.le a) = true := by
  rw [Bool.or_eq_true, le_iff, le_iff]
  exact Text.lex_total _ _ (Text.lex_total _ _ (String.le_total _ _))

end Reference

namespace Tables

open VaultIndex

/-- The front matter of all notes can be written. -/
def IsWritable (i : VaultIndex) : Prop :=
  (i.notes.values.any fun n => n.frontMatter.any Value.entriesHaveLongInteger) = false

instance (i : VaultIndex) : Decidable (IsWritable i) :=
  inferInstanceAs (Decidable ((i.notes.values.any fun n => n.frontMatter.any Value.entriesHaveLongInteger) = false))

/-- The tables that an index leaves in a session: no rows where some front matter cannot be written. -/
def shown (i : VaultIndex) : Tables :=
  match ofIndex i with
  | .ok t => t
  | .error _ => ⟨[], [], [], i.stats⟩

variable {i : VaultIndex}

theorem ofIndex_of_writable (h : IsWritable i) :
    ofIndex i = .ok ⟨i.notes.values.map .ofNote, i.references, i.owners, i.stats⟩ := by
  rw [ofIndex, h]
  rfl

theorem ofIndex_of_not_writable (h : ¬IsWritable i) : ofIndex i = .error .longInteger := by
  rw [IsWritable, Bool.not_eq_false] at h
  rw [ofIndex, h]
  rfl

theorem shown_of_not_writable (h : ¬IsWritable i) : shown i = ⟨[], [], [], i.stats⟩ := by
  rw [shown, ofIndex_of_not_writable h]

/-- The tables agree with the index, its conflicts and its graph. -/
structure Reflects (t : Tables) (i : VaultIndex) : Prop where
  rows : t.noteRows.Perm (i.notes.values.map .ofNote)
  broken : t.brokenReferences.Perm (i.references.filter (i.IsDangling ·))
  /-- By source, then by target, in the order of octets. -/
  brokenOrder : t.brokenReferences.Pairwise fun a b => Text.octets a.source < Text.octets b.source ∨
    a.source = b.source ∧ (Text.octets a.target < Text.octets b.target ∨ a.target = b.target)
  brokenCount : t.summary.broken = t.brokenReferences.length
  brokenIssues : t.summary.broken = (i.conflicts.flatMap (·.2)).countP (·.code = .missingReference)
  references : t.summary.references = i.references.length
  total : t.summary.stats.total = t.noteRows.length
  invalid : t.invalidNotes.Perm ((i.notes.values.filter (0 < ·.errors)).map .ofNote)
  errors : t.summary.stats.errors = ((t.invalidNotes.map (·.errors)).sum : Nat)
  typeNames : (t.typeDistribution.map (·.1)).Nodup
  typeCounts : (t.typeDistribution.map (·.2)).sum = i.notes.length
  types : ∀ type, type ≠ "(none)" →
    (Dictionary.get? t.typeDistribution type).getD 0 = ((VaultGraph.ofIndex i).notesOfType (some type)).length

section Distribution

variable (t : Tables)

theorem typeDistribution_perm :
    t.typeDistribution.Perm (Dictionary.counts (t.notes.map fun r => (r.typeLabel, ()))) := by
  rw [Dictionary.counts, ← Dictionary.foldl_push, List.foldl_map]
  exact List.mergeSort_perm _ _

theorem nodup_typeDistribution : (t.typeDistribution.map (·.1)).Nodup := by
  rw [((typeDistribution_perm t).map _).nodup_iff, ← Dictionary.keys, Dictionary.keys_counts]
  exact Text.firstOccurrences_nodup _

theorem getD_typeDistribution (type : String) :
    (Dictionary.get? t.typeDistribution type).getD 0 = (t.notes.filter (·.typeLabel = type)).length := by
  rw [Dictionary.get?_perm (typeDistribution_perm t) (nodup_typeDistribution t), Dictionary.getD_counts,
    List.filter_map, List.length_map]
  rfl

theorem sum_typeDistribution : (t.typeDistribution.map (·.2)).sum = t.notes.length := by
  rw [((typeDistribution_perm t).map _).sum_eq, Dictionary.sum_counts, List.length_map]

end Distribution

section Reflects

theorem brokenReferences_pairwise (t : Tables) :
    t.brokenReferences.Pairwise fun a b => Text.octets a.source < Text.octets b.source ∨
    a.source = b.source ∧ (Text.octets a.target < Text.octets b.target ∨ a.target = b.target) := by
  have hsorted : t.brokenReferences.Pairwise fun a b => a.le b = true :=
    @List.pairwise_mergeSort _ Reference.le (fun _ _ _ hab hbc => Reference.le_trans hab hbc) Reference.le_total _
  refine hsorted.imp fun {a b} h => ?_
  rw [Reference.le_iff] at h
  rw [Text.octets_lt_iff, Text.octets_lt_iff]
  exact h.imp_right (And.imp_right (Or.imp_right And.left))

/-- The issues of references that lead nowhere are as many as these references. -/
theorem countP_missingReference (i : VaultIndex) :
    (i.conflicts.flatMap (·.2)).countP (·.code = .missingReference) = (i.references.filter (!i.resolves ·)).length := by
  have hissues : (i.conflicts.flatMap (·.2)).Perm ((i.duplicateIssues ++ i.danglingIssues).map (·.2)) := by
    have h := (Dictionary.flatMap_grouped_perm (i.duplicateIssues ++ i.danglingIssues)).map (·.2)
    rw [List.map_flatMap] at h
    simpa [conflicts_eq, Function.comp_def] using h
  have hduplicate : (i.duplicateIssues.map (·.2)).countP (·.code = .missingReference) = 0 := by
    refine List.countP_eq_zero.2 fun issue hissue => ?_
    obtain ⟨e, he, rfl⟩ := List.mem_map.1 hissue
    obtain ⟨identity, others, he⟩ := exists_of_mem_duplicateIssues he
    rw [he]
    simp [Issue.idRepeated, Issue.error]
  have hdangling : (i.danglingIssues.map (·.2)).countP (·.code = .missingReference) = i.danglingIssues.length := by
    rw [List.countP_eq_length.2, List.length_map]
    intro issue hissue
    simp only [danglingIssues, List.map_map, List.mem_map] at hissue
    obtain ⟨e, -, rfl⟩ := hissue
    rfl
  rw [hissues.countP_eq, List.map_append, List.countP_append, hduplicate, hdangling, Nat.zero_add, danglingIssues,
    List.length_map]

theorem sum_errors (notes : List IndexedNote) :
    (notes.map fun n => (n.errors : Int)).sum = (((notes.filter (0 < ·.errors)).map (·.errors)).sum : Nat) := by
  induction notes with
  | nil => rfl
  | cons n rest ih =>
    by_cases hn : 0 < n.errors
    · simp [hn, ih]
    · obtain hzero : n.errors = 0 := by omega
      simp [hzero, ih]

theorem reflects_rows {files : List (String × String)} (h : i.IsConsistent files) :
    Reflects ⟨i.notes.values.map .ofNote, i.references, i.owners, i.stats⟩ i := by
  have hbroken : (i.references.filter fun e => !i.owners.any (·.1 = e.target)) = i.references.filter (!i.resolves ·) :=
    List.filter_congr fun e _ => by simp [resolves, Dictionary.has, Bool.beq_eq_decide_eq]
  have hdangling : i.references.filter (!i.resolves ·) = i.references.filter (i.IsDangling ·) :=
    List.filter_congr fun e _ => by
      have hresolves := resolves_iff h.identities e
      by_cases hd : i.IsDangling e <;> simp_all
  have hinvalid : (i.notes.values.map NoteRow.ofNote).filter (!·.isValid) =
      (i.notes.values.filter (0 < ·.errors)).map .ofNote := by
    rw [List.filter_map]
    refine congrArg _ (List.filter_congr fun n hn => ?_)
    have hvalid := h.isValid n hn
    have hrow : (NoteRow.ofNote n).isValid = n.isValid := rfl
    rw [Function.comp_apply, hrow, Bool.eq_iff_iff, decide_eq_true_iff, Nat.pos_iff_ne_zero, ne_eq, ← hvalid]
    simp
  have hnotes : (Tables.mk (i.notes.values.map .ofNote) i.references i.owners i.stats).invalidNotes.Perm
      ((i.notes.values.filter (0 < ·.errors)).map .ofNote) := by
    rw [← hinvalid]
    exact List.mergeSort_perm _ _
  exact {
    rows := List.mergeSort_perm _ _
    broken := by
      rw [← hdangling, ← hbroken]
      exact List.mergeSort_perm _ _
    brokenOrder := brokenReferences_pairwise _
    brokenCount := rfl
    brokenIssues := by
      rw [countP_missingReference, ← hbroken]
      exact List.length_mergeSort _
    references := rfl
    total := by
      rw [noteRows, List.length_mergeSort, List.length_map, Dictionary.values, List.length_map, summary, h.stats]
    invalid := hnotes
    errors := by
      rw [(hnotes.map (·.errors)).sum_eq, summary, h.stats, sum_errors, List.map_map]
      rfl
    typeNames := nodup_typeDistribution _
    typeCounts := by rw [sum_typeDistribution, List.length_map, Dictionary.values, List.length_map]
    types := fun type htype => by
      rw [getD_typeDistribution, List.filter_map, List.length_map, VaultGraph.notesOfType, VaultGraph.notes,
        VaultGraph.ofIndex]
      refine congrArg List.length (List.filter_congr fun n _ => ?_)
      cases hn : n.type <;> simp [NoteRow.ofNote, NoteRow.typeLabel, hn, Ne.symm htype] }

end Reflects

end Tables

/-- The index is built from files with different paths, and no collection in their headers holds itself. -/
def VaultIndex.IsBuilt (i : VaultIndex) : Prop :=
  ∃ r config files, (files.map (·.1)).Nodup ∧ (∀ file ∈ files, ¬ Note.HoldsItself file.2) ∧ build r config files = .ok i

namespace TableSession

/-- What is done with an open session: it is shown another index, or asked. -/
inductive Step where
  | refresh (i : VaultIndex)
  | query

/-- The session after a step; a question leaves it as it is. -/
def next (s : TableSession) : Step → TableSession
  | .refresh i => s.after i
  | .query => s

/-- The index that is shown last. -/
def lastShown (i : VaultIndex) (steps : List Step) : VaultIndex :=
  steps.foldl (fun i step => match step with | .refresh j => j | .query => i) i

/-- All indexes that are shown. -/
def shownIn (i : VaultIndex) (steps : List Step) : List VaultIndex :=
  i :: steps.filterMap fun step => match step with | .refresh j => some j | .query => none

theorem lastShown_mem (i : VaultIndex) (steps : List Step) : lastShown i steps ∈ shownIn i steps := by
  induction steps generalizing i with
  | nil => exact List.mem_singleton_self i
  | cons step steps ih =>
    cases step with
    | refresh j => exact List.mem_cons_of_mem i (ih j)
    | query => exact ih i

/-- Nothing of the tables that were there is left. -/
theorem after_opened (t : Tables) (i : VaultIndex) : (opened t).after i = opened (Tables.shown i) := by
  unfold after Tables.shown
  cases Tables.ofIndex i <;> rfl

theorem start_eq_ok_iff {s : TableSession} {i : VaultIndex} :
    start i = .ok s ↔ Tables.IsWritable i ∧ s = opened (Tables.shown i) := by
  by_cases hi : Tables.IsWritable i
  · rw [start, Tables.shown, Tables.ofIndex_of_writable hi]
    simp [hi, Except.map, eq_comm]
  · rw [start, Tables.ofIndex_of_not_writable hi]
    simp [hi, Except.map]

/-- Through any run a session shows the index that it was shown last. -/
theorem foldl_next (i : VaultIndex) (steps : List Step) :
    steps.foldl next (opened (Tables.shown i)) = opened (Tables.shown (lastShown i steps)) := by
  induction steps generalizing i with
  | nil => rfl
  | cons step steps ih =>
    cases step with
    | refresh j => rw [List.foldl_cons, next, after_opened, ih]; rfl
    | query => rw [List.foldl_cons, next, ih]; rfl

/-- If the front matter of the index that a session is shown last can be written, then the session is one that has just
been started with this index, and it agrees with the index. Otherwise none can be started with it, and there are its
counts and no rows. -/
theorem session_reflects_last {i : VaultIndex} {steps : List Step} {s : TableSession} (hstart : start i = .ok s)
    (hbuilt : ∀ j ∈ shownIn i steps, j.IsBuilt) :
    (Tables.IsWritable (lastShown i steps) → ∃ t, start (lastShown i steps) = .ok (opened t) ∧
      steps.foldl next s = opened t ∧ t.Reflects (lastShown i steps)) ∧
    (¬Tables.IsWritable (lastShown i steps) → start (lastShown i steps) = .error .longInteger ∧
      steps.foldl next s = opened ⟨[], [], [], (lastShown i steps).stats⟩) := by
  obtain ⟨-, rfl⟩ := start_eq_ok_iff.1 hstart
  obtain ⟨r, config, files, hpaths, -, hbuild⟩ := hbuilt _ (lastShown_mem i steps)
  rw [foldl_next]
  generalize lastShown i steps = last at hbuild
  constructor
  · intro hwritable
    obtain ⟨entries, hread, rfl⟩ := VaultIndex.exists_entries_of_build hbuild
    refine ⟨_, start_eq_ok_iff.2 ⟨hwritable, rfl⟩, rfl, ?_⟩
    rw [Tables.shown, Tables.ofIndex_of_writable hwritable]
    exact Tables.reflects_rows
      (VaultIndex.isConsistent_ofNotes hpaths (hread.imp fun _ _ h => VaultIndex.isRead_readNote h))
  · intro hnot
    rw [start, Tables.ofIndex_of_not_writable hnot, Tables.shown_of_not_writable hnot]
    exact ⟨rfl, rfl⟩

/-- A note names another that is not there; then the index is of that note alone, which names a third one. -/
theorem session_reflects_last_refreshed :
    let first := [("a.md", "---\ntype: idea\nprojects: q\n---"), ("c.md", "")]
    let second := [("a.md", "---\ntype: idea\nprojects: [r, x]\nid: x\n---")]
    ∃ i j s t, VaultIndex.build .standard .default first = .ok i ∧ VaultIndex.build .standard .default second = .ok j ∧
      start i = .ok s ∧ [Step.refresh j, .query].foldl next s = opened t ∧
      j.references = [⟨"a.md", "r", "projects"⟩, ⟨"a.md", "x", "projects"⟩] ∧ t.Reflects j := by
  intro first second
  have hpaths : (first.map (·.1)).Nodup ∧ (second.map (·.1)).Nodup := by decide
  have hends : (∀ file ∈ first, ¬ Note.HoldsItself file.2) ∧ ∀ file ∈ second, ¬ Note.HoldsItself file.2 := by
    decide +kernel
  have hfirst : ((VaultIndex.build .standard .default first).toOption.any (Tables.IsWritable ·)) = true := by
    decide +kernel
  have hsecond : ((VaultIndex.build .standard .default second).toOption.any fun j => Tables.IsWritable j ∧
      j.references = [⟨"a.md", "r", "projects"⟩, ⟨"a.md", "x", "projects"⟩]) = true := by decide +kernel
  clear_value first second
  obtain ⟨i, hi, hwritable⟩ := exists_of_toOption_any hfirst
  obtain ⟨j, hj, hrefreshed⟩ := exists_of_toOption_any hsecond
  obtain ⟨hlast, hreferences⟩ := of_decide_eq_true hrefreshed
  have hstart := start_eq_ok_iff.2 ⟨of_decide_eq_true hwritable, rfl⟩
  have hbuilt : ∀ k ∈ [i, j], k.IsBuilt := by
    simp only [List.forall_mem_cons, List.not_mem_nil, false_implies, implies_true, and_true]
    exact ⟨⟨_, _, first, hpaths.1, hends.1, hi⟩, ⟨_, _, second, hpaths.2, hends.2, hj⟩⟩
  obtain ⟨t, -, ht, hreflects⟩ := (@session_reflects_last i [.refresh j, .query] _ hstart hbuilt).1 hlast
  exact ⟨i, j, _, t, hi, hj, hstart, ht, hreferences, hreflects⟩

end TableSession

end NoteVault
