import NoteVault.Proofs.Dictionary
import NoteVault.Proofs.Index.Consistency
import NoteVault.Proofs.Note.Answers
import NoteVault.Proofs.Note.Body
import NoteVault.Vault

/-!
What a vault keeps while it is edited. An edit is at one path and leaves all other notes as they are, in their order, so
that the notes of a vault are always at distinct paths and their index is consistent. Repairs and changes of type leave
every body where it is found.
-/
namespace NoteVault

variable {r : Registry} {config : Config}

namespace Note

/-- A text has the body of another one, or is the other one if that has none. -/
structure HasBodyOf (revised content : String) : Prop where
  bare : split content = none → revised = content
  body : ∀ header body, split content = some (header, body) → ∃ header', split revised = some (header', body)

@[refl] theorem HasBodyOf.refl (content : String) : HasBodyOf content content :=
  ⟨fun _ => rfl, fun header _ h => ⟨header, h⟩⟩

theorem HasBodyOf.trans {a b c : String} (h : HasBodyOf c b) (h' : HasBodyOf b a) : HasBodyOf c a where
  bare hnone := by
    obtain rfl := h'.bare hnone
    exact h.bare hnone
  body header body hsplit := by
    obtain ⟨header', hb⟩ := h'.body header body hsplit
    exact h.body header' body hb

/-- What is written behind a header that is read has the body there. -/
theorem hasBodyOf_of_data {content revised header : String} {note : Note} {m : Mapping}
    (hparse : parse content = .ok note) (hm : note.data = some m) (h : split revised = some (header, note.body)) : HasBodyOf revised content := by
  obtain ⟨_, _, hsplit, -⟩ := exists_of_parse hparse hm
  refine ⟨fun hnone => ?_, fun header' body hbody => ?_⟩
  · rw [hsplit] at hnone
    cases hnone
  · cases hsplit.symm.trans hbody
    exact ⟨header, h⟩

theorem hasBodyOf_repair {p : RepairPlan} {content : String} {rev : Revision}
    (h : repair p r config content = .ok rev) : HasBodyOf rev.content content := by
  cases hparse : parse content with
  | error e => simp [repair, hparse, Except.mapError, bind, Except.bind] at h
  | ok note =>
    cases hm : note.data with
    | none =>
      rw [repair_of_no_data hparse hm] at h
      cases h
      rfl
    | some m =>
      obtain ⟨header, hheader⟩ := split_repair hparse hm h
      exact hasBodyOf_of_data hparse hm hheader

theorem hasBodyOf_migrate {source target content : String} {rev : Revision}
    (h : migrate r source target content = .ok rev) : HasBodyOf rev.content content := by
  cases hparse : parse content with
  | error e => simp [migrate, hparse, Except.mapError, bind, Except.bind] at h
  | ok note =>
    cases hm : note.data with
    | none =>
      simp only [migrate, hparse, hm, Except.mapError, bind, Except.bind, pure, Except.pure] at h
      cases h
      rfl
    | some m =>
      obtain ⟨header, hheader⟩ := split_migrate hparse hm h
      exact hasBodyOf_of_data hparse hm hheader

end Note

namespace Vault

variable {path other : String} {paths : List String} {u v w : Vault}

/-- An edit of the note at a path that revises what is there. -/
inductive Revises (r : Registry) (config : Config) (path : String) (v w : Vault) : Prop
  | repair {p : RepairPlan} {revision : Option Revision} (h : v.repair path p r config = .ok (revision, w))
  | migrate {source target : String} {revision : Option Revision}
    (h : v.migrate path r source target = .ok (revision, w))

/-- An edit of the note at a path. -/
inductive Edits (r : Registry) (config : Config) (path : String) (v : Vault) : Vault → Prop
  | write (content : String) : Edits r config path v (v.write path content)
  | remove : Edits r config path v (v.remove path).2
  | scaffold {type content : String} {overrides : Mapping} {w : Vault}
    (h : v.scaffold path r type overrides = .ok (content, w)) : Edits r config path v w
  | revise {w : Vault} (h : Revises r config path v w) : Edits r config path v w

/-- Edits at paths, one after another. -/
inductive Run (r : Registry) (config : Config) : List String → Vault → Vault → Prop
  | done (v : Vault) : Run r config [] v v
  | edit {path : String} {paths : List String} {u v w : Vault} (h : Edits r config path u v)
    (hrest : Run r config paths v w) : Run r config (path :: paths) u w

section Step

/-- A note that is revised is there, and its new content takes the place of the old one. -/
theorem revise_cases {ε : Type} {change : String → Except ε Revision} {revision : Option Revision}
    (h : v.revise path change = .ok (revision, w)) : (v.get? path = none ∧ revision = none ∧ w = v) ∨
      ∃ content rev, v.get? path = some content ∧ change content = .ok rev ∧ revision = some rev ∧
        w = v.put path rev.content := by
  unfold revise at h
  split at h
  next hnone =>
    cases h
    exact .inl ⟨hnone, rfl, rfl⟩
  next content hcontent =>
    cases hchange : change content with
    | error e =>
      rw [hchange] at h
      cases h
    | ok rev =>
      rw [hchange] at h
      cases h
      exact .inr ⟨content, rev, hcontent, hchange, rfl, rfl⟩

/-- A revision puts a text with the body of the old one in its place, if there is one. -/
theorem Revises.cases (h : Revises r config path v w) : w = v ∨ ∃ content revised, v.get? path = some content ∧
    w = v.put path revised ∧ Note.HasBodyOf revised content := by
  cases h with
  | repair h =>
    obtain ⟨-, -, rfl⟩ | ⟨content, rev, hcontent, hrev, -, rfl⟩ := revise_cases h
    · exact .inl rfl
    · exact .inr ⟨content, rev.content, hcontent, rfl, Note.hasBodyOf_repair hrev⟩
  | migrate h =>
    obtain ⟨-, -, rfl⟩ | ⟨content, rev, hcontent, hrev, -, rfl⟩ := revise_cases h
    · exact .inl rfl
    · exact .inr ⟨content, rev.content, hcontent, rfl, Note.hasBodyOf_migrate hrev⟩

/-- All that an edit can do. -/
theorem Edits.cases (h : Edits r config path v w) :
    w = v ∨ (∃ content, w = v.put path content) ∨ w = v.erase path := by
  cases h with
  | write content => exact .inr (.inl ⟨content, rfl⟩)
  | remove => exact .inr (.inr rfl)
  | scaffold h =>
    rw [Vault.scaffold] at h
    cases hscaffold : r.scaffold _ _ with
    | error e =>
      rw [hscaffold] at h
      cases h
    | ok text =>
      rw [hscaffold] at h
      cases h
      exact .inr (.inl ⟨_, rfl⟩)
  | revise h =>
    obtain rfl | ⟨_, revised, -, rfl, -⟩ := h.cases
    · exact .inl rfl
    · exact .inr (.inl ⟨_, rfl⟩)

/-- The paths of a vault other than some stay as they are, in their order and with their contents. -/
structure Keeps (paths : List String) (v w : Vault) : Prop where
  nodup : v.keys.Nodup → w.keys.Nodup
  content : ∀ other ∉ paths, w.get? other = v.get? other
  order : w.keys.filter (· ∉ paths) = v.keys.filter (· ∉ paths)

theorem Keeps.refl (paths : List String) (v : Vault) : Keeps paths v v := ⟨id, fun _ _ => rfl, rfl⟩

theorem Keeps.trans (h : Keeps paths u v) (h' : Keeps paths v w) : Keeps paths u w :=
  ⟨h'.nodup ∘ h.nodup, fun other hother => (h'.content other hother).trans (h.content other hother),
    h'.order.trans h.order⟩

theorem Keeps.mono {more : List String} (h : Keeps paths v w) (hsub : paths ⊆ more) : Keeps more v w := by
  refine ⟨h.nodup, fun other hother => h.content other fun hmem => hother (hsub hmem), ?_⟩
  have hfilter : ∀ keys : List String, keys.filter (· ∉ more) = (keys.filter (· ∉ paths)).filter (· ∉ more) := by
    intro keys
    rw [List.filter_filter]
    refine List.filter_congr fun key _ => ?_
    by_cases hmem : key ∈ more
    · simp [hmem]
    · simp [hmem, mt (@hsub key) hmem]
  rw [hfilter w.keys, hfilter v.keys, h.order]

/-- An edit is at its path alone. -/
theorem Edits.keeps (h : Edits r config path v w) : Keeps [path] v w := by
  obtain rfl | ⟨content, rfl⟩ | rfl := h.cases
  · exact .refl _ _
  · refine ⟨fun hv => Dictionary.keys_put_nodup hv path content, fun other hother => ?_, ?_⟩
    · rw [Dictionary.get?_put, if_neg (by simpa using hother)]
    · rw [Dictionary.keys_put]
      split
      · rfl
      · simp
  · refine ⟨fun hv => ?_, fun other hother => ?_, ?_⟩
    · rw [Dictionary.keys_erase]
      exact hv.sublist List.filter_sublist
    · exact Dictionary.get?_erase v (by simpa using hother)
    · rw [Dictionary.keys_erase, List.filter_filter]
      refine List.filter_congr fun key _ => ?_
      by_cases hkey : key = path <;> simp [hkey]

end Step

section Runs

/-- A run keeps the notes at all paths at which there is no edit. -/
theorem Run.keeps (h : Run r config paths v w) : Keeps paths v w := by
  induction h with
  | done v => exact .refl _ v
  | edit h _ ih =>
    exact (h.keeps.mono (by simp)).trans (ih.mono (List.subset_cons_self _ _))

/-- The notes of a vault that has been edited are at distinct paths. It has an index exactly when each of them is
decoded and what is told of it can be written, and the index is consistent. -/
theorem Run.index (h : Run r config paths [] w) : w.keys.Nodup ∧
    ((∃ i, w.index r config = .ok i) ↔ ∀ path content, w.get? path = some content →
      ∃ note, Note.parse content = .ok note ∧ note.data.any (r.isLongAt config) = false) ∧
    ∀ i, w.index r config = .ok i → i.IsConsistent w := by
  have hnodup : w.keys.Nodup := h.keeps.nodup .nil
  refine ⟨hnodup, (VaultIndex.exists_build r config w).trans
    ⟨fun hall path content hcontent => ?_, fun hall file hfile => ?_⟩, fun i hi => ?_⟩
  · exact hall _ (Dictionary.mem_of_get? hcontent)
  · exact hall file.1 file.2 (Dictionary.get?_of_mem hnodup hfile)
  · obtain ⟨entries, hentries, rfl⟩ := VaultIndex.exists_entries_of_build hi
    exact VaultIndex.isConsistent_ofNotes hnodup (hentries.imp fun _ _ he => VaultIndex.isRead_readNote he)

/-- Repairs and changes of type, one after another. -/
def Revised (r : Registry) (config : Config) : Vault → Vault → Prop :=
  Relation.ReflTransGen fun v w => ∃ path, Revises r config path v w

/-- A revision keeps all paths, and every note has the body that it had. -/
theorem Revises.keeps_bodies (h : Revises r config path v w) : w.keys = v.keys ∧
    ∀ other content, v.get? other = some content → ∃ revised, w.get? other = some revised ∧
      Note.HasBodyOf revised content := by
  obtain rfl | ⟨content, revised, hcontent, rfl, hbody⟩ := h.cases
  · exact ⟨rfl, fun _ content hcontent => ⟨content, hcontent, .refl _⟩⟩
  · have hkeys : (v.put path revised).keys = v.keys := by
      rw [Dictionary.keys_put, if_pos (Dictionary.mem_keys_iff.2 ⟨content, hcontent⟩)]
    refine ⟨hkeys, fun other text htext => ?_⟩
    rw [Dictionary.get?_put]
    split
    next heq =>
      subst heq
      cases hcontent.symm.trans htext
      exact ⟨revised, rfl, hbody⟩
    next => exact ⟨text, htext, .refl _⟩

/-- A run of revisions keeps all paths, and every note has the body that it had at first. -/
theorem Revised.keeps_bodies (h : Revised r config v w) : w.keys = v.keys ∧
    ∀ path content, v.get? path = some content → ∃ revised, w.get? path = some revised ∧
      Note.HasBodyOf revised content := by
  induction h with
  | refl => exact ⟨rfl, fun _ content hcontent => ⟨content, hcontent, .refl _⟩⟩
  | tail _ hstep ih =>
    obtain ⟨_, hstep⟩ := hstep
    obtain ⟨hkeys, hbodies⟩ := ih
    obtain ⟨hkeys', hbodies'⟩ := hstep.keeps_bodies
    refine ⟨hkeys'.trans hkeys, fun path content hcontent => ?_⟩
    obtain ⟨middle, hmiddle, hbody⟩ := hbodies path content hcontent
    obtain ⟨revised, hrevised, hbody'⟩ := hbodies' path middle hmiddle
    exact ⟨revised, hrevised, hbody'.trans hbody⟩

end Runs

end Vault

end NoteVault
