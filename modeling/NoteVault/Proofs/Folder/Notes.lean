import NoteVault.Proofs.Config
import NoteVault.Proofs.Folder.Path
import NoteVault.Proofs.Text.Utf8

/-!
The notes of a folder. Each file with a note's path is excluded, or is no text, or is kept with its text, and it is told
once, in the order of the paths.
-/
namespace NoteVault

/-- Line breaks of all kinds, and line feeds in their places. -/
inductive UnifiesBreaks : List Char → List Char → Prop
  | nil : UnifiesBreaks [] []
  | both {s t : List Char} (h : UnifiesBreaks s t) : UnifiesBreaks ('\r' :: '\n' :: s) ('\n' :: t)
  | carriage {s t : List Char} (hs : s.head? ≠ some '\n') (h : UnifiesBreaks s t) :
    UnifiesBreaks ('\r' :: s) ('\n' :: t)
  | other {c : Char} {s t : List Char} (hc : c ≠ '\r') (h : UnifiesBreaks s t) : UnifiesBreaks (c :: s) (c :: t)

theorem lineFeeds_carriage {s : List Char} (hs : s.head? ≠ some '\n') :
    lineFeeds ('\r' :: s) = '\n' :: lineFeeds s := by
  rw [lineFeeds]
  rintro rest rfl
  exact hs rfl

theorem lineFeeds_other {c : Char} (hc : c ≠ '\r') (s : List Char) : lineFeeds (c :: s) = c :: lineFeeds s := by
  rw [lineFeeds]
  · exact fun rest h _ => hc h
  · exact hc

theorem unifiesBreaks_iff {s t : List Char} : UnifiesBreaks s t ↔ t = lineFeeds s := by
  constructor
  · intro h
    induction h with
    | nil => rfl
    | both _ ih => rw [lineFeeds, ih]
    | carriage hs _ ih => rw [lineFeeds_carriage hs, ih]
    | other hc _ ih => rw [lineFeeds_other hc, ih]
  · rintro rfl
    induction s using lineFeeds.induct with
    | case1 rest ih => exact .both ih
    | case2 rest hrest ih =>
      have hs : rest.head? ≠ some '\n' := fun hhead => by
        obtain ⟨more, rfl⟩ := List.head?_eq_some_iff.1 hhead
        exact hrest more rfl
      rw [lineFeeds_carriage hs]
      exact .carriage hs ih
    | case3 c rest _ hc ih =>
      rw [lineFeeds_other hc]
      exact .other hc ih
    | case4 => exact .nil

theorem UnifiesBreaks.not_mem {s t : List Char} (h : UnifiesBreaks s t) : '\r' ∉ t := by
  induction h with
  | nil => exact List.not_mem_nil
  | both _ ih | carriage _ _ ih => simpa using ih
  | other hc _ ih => simpa [hc.symm] using ih

/-- The path that an omission is about. -/
def Omission.path : Omission → String
  | excluded path | noText path _ => path

namespace Folder

/-- What becomes of a file with a note's path. -/
inductive Becomes (c : Config) : FilePath × List UInt8 → Omission ⊕ (String × String) → Prop
  | excluded {p : FilePath} {octets : List UInt8} (h : c.excludes p.text = .ok true) :
    Becomes c (p, octets) (.inl (.excluded p.text))
  | noText {p : FilePath} {octets : List UInt8} {fault : Utf8.Fault} (h : c.excludes p.text = .ok false)
    (hoctets : ∀ chars : List Char, octets ≠ chars.flatMap String.utf8EncodeChar)
    (hfault : Utf8.decode octets = .error fault) : Becomes c (p, octets) (.inl (.noText p.text fault.reason))
  | kept {p : FilePath} {chars : List Char} {text : String} (h : c.excludes p.text = .ok false)
    (htext : UnifiesBreaks chars text.toList) :
    Becomes c (p, chars.flatMap String.utf8EncodeChar) (.inr (p.text, text))

variable {f : Folder} {c : Config} {p : FilePath} {octets : List UInt8} {file : FilePath × List UInt8}
  {outcome : Omission ⊕ (String × String)}

theorem noteOf_of_excluded (h : c.excludes p.text = .ok true) :
    noteOf c (p, octets) = .ok (.inl (.excluded p.text)) := by
  rw [noteOf, h]
  rfl

theorem noteOf_of_not_text {fault : Utf8.Fault} (h : c.excludes p.text = .ok false)
    (hfault : Utf8.decode octets = .error fault) :
    noteOf c (p, octets) = .ok (.inl (.noText p.text fault.reason)) := by
  simp only [noteOf, h, bind, Except.bind, Bool.false_eq_true, if_false, hfault]
  rfl

theorem noteOf_of_text {chars : List Char} (h : c.excludes p.text = .ok false)
    (htext : Utf8.decode octets = .ok chars) :
    noteOf c (p, octets) = .ok (.inr (p.text, String.ofList (lineFeeds chars))) := by
  simp only [noteOf, h, bind, Except.bind, Bool.false_eq_true, if_false, htext]
  rfl

theorem Becomes.noteOf_eq (h : Becomes c file outcome) : noteOf c file = .ok outcome := by
  cases h with
  | excluded h => exact noteOf_of_excluded h
  | noText h _ hfault => exact noteOf_of_not_text h hfault
  | kept h htext =>
    rw [noteOf_of_text h (Utf8.decode_eq_ok_iff.2 rfl), ← unifiesBreaks_iff.1 htext, String.ofList_toList]

theorem becomes_of_noteOf (h : noteOf c file = .ok outcome) : Becomes c file outcome := by
  obtain ⟨p, octets⟩ := file
  obtain ⟨e, -, herror⟩ | ⟨excluded, note, hexcludes, -⟩ := noteOf_cases c (p, octets)
  · cases h.symm.trans herror
  cases excluded with
  | true =>
    rw [noteOf_of_excluded hexcludes] at h
    exact Except.ok.inj h ▸ .excluded hexcludes
  | false =>
    cases hdecode : Utf8.decode octets with
    | error fault =>
      rw [noteOf_of_not_text hexcludes hdecode] at h
      exact Except.ok.inj h ▸ .noText hexcludes (Utf8.ne_of_decode_error hdecode) hdecode
    | ok chars =>
      rw [noteOf_of_text hexcludes hdecode] at h
      obtain rfl := Utf8.decode_eq_ok_iff.1 hdecode
      exact Except.ok.inj h ▸ .kept hexcludes (unifiesBreaks_iff.2 String.toList_ofList)

theorem noteOf_eq_ok_iff : noteOf c file = .ok outcome ↔ Becomes c file outcome :=
  ⟨becomes_of_noteOf, Becomes.noteOf_eq⟩

/-- The path that an outcome is told for. -/
def toldPath : Omission ⊕ (String × String) → String := Sum.elim Omission.path Prod.fst

theorem Becomes.toldPath_eq (h : Becomes c file outcome) : toldPath outcome = file.1.text := by
  cases h <;> rfl

theorem Becomes.unique {outcome' : Omission ⊕ (String × String)} (h : Becomes c file outcome)
    (h' : Becomes c file outcome') :
    outcome = outcome' :=
  Except.ok.inj (h.noteOf_eq.symm.trans h'.noteOf_eq)

/-- A file has one outcome, if all patterns have a meaning. -/
theorem existsUnique_becomes (hglobs : ∀ g ∈ c.excludeGlobs, Glob.IsUsable g) (file : FilePath × List UInt8) :
    ∃! outcome, Becomes c file outcome := by
  obtain ⟨outcome, h⟩ := exists_noteOf_iff.2 hglobs
  exact ⟨outcome, becomes_of_noteOf h, fun outcome' h' => h'.unique (becomes_of_noteOf h)⟩

/-- Each path leads to one file, and no name holds a slash. -/
structure IsProper (f : Folder) : Prop where
  distinct : (f.files.map Prod.fst).Nodup
  names : ∀ file ∈ f.files, ∀ name ∈ file.1, '/' ∉ name.toList

section Proper

theorem map_putFile (p : FilePath) (octets : List UInt8) (files : List (FilePath × List UInt8)) :
    (putFile p octets files).map Prod.fst =
      if p ∈ files.map Prod.fst then files.map Prod.fst else files.map Prod.fst ++ [p] := by
  induction files with
  | nil => simp [putFile]
  | cons file files ih =>
    obtain ⟨q, old⟩ := file
    by_cases h : q = p
    · simp [putFile, h]
    · have hne : ¬ p = q := fun heq => h heq.symm
      rw [putFile, if_neg h, List.map_cons, ih, List.map_cons]
      split_ifs <;> simp_all

theorem isProper_empty : empty.IsProper := ⟨List.nodup_nil, nofun⟩

theorem IsProper.write (h : f.IsProper) (hp : ∀ name ∈ p, '/' ∉ name.toList) : (f.write p octets).IsProper := by
  have hpaths : ∀ q ∈ f.files.map Prod.fst, ∀ name ∈ q, '/' ∉ name.toList := fun q hq => by
    obtain ⟨file, hfile, rfl⟩ := List.mem_map.1 hq
    exact h.names file hfile
  have hmem : ∀ q ∈ (f.write p octets).files.map Prod.fst, ∀ name ∈ q, '/' ∉ name.toList := fun q hq => by
    rw [Folder.write, map_putFile] at hq
    split_ifs at hq
    · exact hpaths q hq
    · obtain hq | hq := List.mem_append.1 hq
      · exact hpaths q hq
      · exact List.mem_singleton.1 hq ▸ hp
  refine ⟨?_, fun file hfile => hmem _ (List.mem_map_of_mem hfile)⟩
  rw [Folder.write, map_putFile]
  split_ifs with hold
  · exact h.distinct
  · exact List.nodup_append.2 ⟨h.distinct, List.nodup_singleton p, fun q hq r hr heq => by
      rw [List.mem_singleton.1 hr] at heq
      exact hold (heq ▸ hq)⟩

end Proper

/-- The order in which files are listed. -/
def fileLe (a b : FilePath × List UInt8) : Bool := a.1.le b.1

theorem fileLe_trans (a b d : FilePath × List UInt8) (hab : fileLe a b = true) (hbd : fileLe b d = true) :
    fileLe a d = true :=
  FilePath.le_trans hab hbd

theorem fileLe_total (a b : FilePath × List UInt8) : (fileLe a b || fileLe b a) = true := FilePath.le_total a.1 b.1

theorem mem_noteFiles : file ∈ f.noteFiles ↔ file ∈ f.files ∧ file.1.IsNotePath := by
  rw [noteFiles, List.mem_mergeSort, List.mem_filter, FilePath.isNote_iff]

theorem noteFiles_increasing (h : f.IsProper) : f.noteFiles.Pairwise fun a b => a.1 < b.1 := by
  have hsorted : f.noteFiles.Pairwise fun a b => fileLe a b = true :=
    List.pairwise_mergeSort fileLe_trans fileLe_total _
  have hperm : f.noteFiles.Perm (f.files.filter fun file => file.1.isNote) := List.mergeSort_perm _ _
  have hdistinct : (f.noteFiles.map Prod.fst).Nodup :=
    (hperm.map Prod.fst).nodup_iff.2 (h.distinct.sublist (List.filter_sublist.map Prod.fst))
  exact (hsorted.and (List.pairwise_map.1 hdistinct)).imp fun h => FilePath.lt_of_le_of_ne h.1 h.2

/-- The notes and what has been left out, from the outcomes of the files. -/
theorem notes_eq_ok_iff {kept : List (String × String)} {omitted : List Omission} : f.notes c = .ok (kept, omitted) ↔
    ∃ all, List.Forall₂ (Becomes c) f.noteFiles all ∧ kept = all.filterMap Sum.getRight? ∧
      omitted = all.filterMap Sum.getLeft? := by
  simp only [notes, bind_eq_ok, mapM_eq_ok, noteOf_eq_ok_iff, pure, Except.pure, Except.ok.injEq, Prod.mk.injEq,
    eq_comm (b := kept), eq_comm (b := omitted)]

section Outcomes

variable {files : List (FilePath × List UInt8)} {all : List (Omission ⊕ (String × String))}

theorem mem_getRight? {note : String × String} : note ∈ all.filterMap Sum.getRight? ↔ .inr note ∈ all := by
  simp [List.mem_filterMap]

theorem mem_getLeft? {o : Omission} : o ∈ all.filterMap Sum.getLeft? ↔ .inl o ∈ all := by
  simp [List.mem_filterMap]

/-- An outcome is told exactly if it is one of a file. -/
theorem mem_outcomes_iff (h : List.Forall₂ (Becomes c) files all) :
    outcome ∈ all ↔ ∃ file ∈ files, Becomes c file outcome := by
  refine ⟨(exists_of_forall₂ h).2 outcome, fun ⟨file, hfile, hbecomes⟩ => ?_⟩
  obtain ⟨outcome', hmem, hbecomes'⟩ := (exists_of_forall₂ h).1 file hfile
  rwa [hbecomes.unique hbecomes']

theorem map_toldPath (h : List.Forall₂ (Becomes c) files all) :
    all.map toldPath = files.map fun file => file.1.text := by
  induction h with
  | nil => rfl
  | cons hfile _ ih => rw [List.map_cons, List.map_cons, hfile.toldPath_eq, ih]

/-- What is told of some of the files is told in their order. -/
theorem exists_paths {α : Type} (select : Omission ⊕ (String × String) → Option α) (name : α → String)
    (hname : ∀ outcome a, select outcome = some a → name a = toldPath outcome)
    (h : List.Forall₂ (Becomes c) files all) :
    ∃ ps : List FilePath, ps.Sublist (files.map Prod.fst) ∧ (all.filterMap select).map name = ps.map FilePath.text := by
  induction h with
  | nil => exact ⟨[], .slnil, rfl⟩
  | @cons file outcome files all hfile _ ih =>
    obtain ⟨ps, hps, htold⟩ := ih
    cases hselect : select outcome with
    | none => exact ⟨ps, hps.cons _, by simpa [hselect] using htold⟩
    | some a =>
      refine ⟨file.1 :: ps, hps.cons_cons _, ?_⟩
      rw [List.filterMap_cons_some hselect, List.map_cons, List.map_cons, hname _ _ hselect, hfile.toldPath_eq, htold]

theorem told_perm (all : List (Omission ⊕ (String × String))) :
    ((all.filterMap Sum.getRight?).map Prod.fst ++ (all.filterMap Sum.getLeft?).map Omission.path).Perm
      (all.map toldPath) := by
  induction all with
  | nil => rfl
  | cons outcome all ih =>
    cases outcome with
    | inl o => exact List.perm_middle.trans (ih.cons _)
    | inr note => exact ih.cons _

end Outcomes

/-- A file with other octets. -/
def withOctets (other : FilePath → List UInt8 → List UInt8) (file : FilePath × List UInt8) : FilePath × List UInt8 :=
  (file.1, other file.1 file.2)

/-- Other octets in the files of a folder. -/
def replaceOctets (f : Folder) (other : FilePath → List UInt8 → List UInt8) : Folder :=
  { f with files := f.files.map (withOctets other) }

/-- What the files that are excluded hold makes no difference. -/
theorem notes_replaceOctets {other : FilePath → List UInt8 → List UInt8}
    (hother : ∀ p octets, c.excludes p.text ≠ .ok true → other p octets = octets) :
    (f.replaceOctets other).notes c = f.notes c := by
  have hfiles : (f.replaceOctets other).noteFiles = f.noteFiles.map (withOctets other) := by
    rw [noteFiles, replaceOctets, List.filter_map]
    exact (List.map_mergeSort (r := fileLe) (s := fileLe) (f := withOctets other) fun _ _ _ _ => rfl).symm
  have hnote : noteOf c ∘ withOctets other = noteOf c := by
    funext ⟨p, octets⟩
    rw [Function.comp_apply, withOctets]
    by_cases h : c.excludes p.text = .ok true
    · rw [noteOf_of_excluded h, noteOf_of_excluded h]
    · rw [hother p octets h]
  rw [notes, notes, hfiles, List.mapM_map, hnote]

theorem text_injective_on_notes (h : f.IsProper) {a b : FilePath × List UInt8} (ha : a ∈ f.noteFiles)
    (hb : b ∈ f.noteFiles)
    (heq : a.1.text = b.1.text) : a.1 = b.1 := by
  have hne : ∀ {p : FilePath}, p.IsNotePath → p ≠ [] := by
    rintro _ ⟨folders, name, rfl, -⟩
    simp
  obtain ⟨hamem, hanote⟩ := mem_noteFiles.1 ha
  obtain ⟨hbmem, hbnote⟩ := mem_noteFiles.1 hb
  exact FilePath.text_inj (h.names a hamem) (h.names b hbmem) (hne hanote) (hne hbnote) heq

theorem noteFiles_texts_nodup (h : f.IsProper) : (f.noteFiles.map fun file => file.1.text).Nodup := by
  rw [List.nodup_iff_pairwise_ne, List.pairwise_map]
  refine (noteFiles_increasing h).imp_of_mem fun {a b} ha hb hlt heq => ?_
  have hpath := text_injective_on_notes h ha hb heq
  exact List.lt_irrefl b.1 (hpath ▸ hlt)

/-- Paths of files as texts, in the order of their names, one after another, and none of them twice. -/
def AreIncreasing (f : Folder) (texts : List String) : Prop :=
  ∃ ps : List FilePath, texts = ps.map FilePath.text ∧ (∀ p ∈ ps, p ∈ f.files.map Prod.fst) ∧ ps.Pairwise (· < ·)

theorem areIncreasing_of_sublist (h : f.IsProper) {ps : List FilePath} (hps : ps.Sublist (f.noteFiles.map Prod.fst)) :
    f.AreIncreasing (ps.map FilePath.text) := by
  refine ⟨ps, rfl, fun p hp => ?_, (List.pairwise_map.2 (noteFiles_increasing h)).sublist hps⟩
  obtain ⟨file, hfile, rfl⟩ := List.mem_map.1 (hps.subset hp)
  exact List.mem_map_of_mem (mem_noteFiles.1 hfile).1

/-- How much an omission matters tells whether settings exclude its path. -/
theorem Becomes.level_iff {o : Omission} (h : Becomes c file (.inl o)) :
    (o.level = "DEBUG" ↔ c.excludes o.path = .ok true) ∧ (o.level = "WARNING" ↔ c.excludes o.path = .ok false) := by
  cases h with
  | excluded h | noText h _ _ => simp [Omission.level, Omission.path, h]

/-- The files with a note's path are told once each: those that settings exclude, whatever they hold; those of the
others that are no text; and the rest, with their texts, in which all line breaks are line feeds. -/
theorem notes_partition (f : Folder) (c : Config) (hproper : f.IsProper) (hglobs : ∀ g ∈ c.excludeGlobs, Glob.IsUsable g) :
    (∀ a ∈ f.files, ∀ b ∈ f.files, a.1.IsNotePath → b.1.IsNotePath → a.1.text = b.1.text → a = b) ∧
    (∀ file ∈ f.files, ∃! outcome, Becomes c file outcome) ∧
    (∀ other : FilePath → List UInt8 → List UInt8,
      (∀ p octets, c.excludes p.text ≠ .ok true → other p octets = octets) →
      (f.replaceOctets other).notes c = f.notes c) ∧
    ∃ kept omitted, f.notes c = .ok (kept, omitted) ∧
      (∀ note, note ∈ kept ↔ ∃ file ∈ f.files, file.1.IsNotePath ∧ Becomes c file (.inr note)) ∧
      (∀ o, o ∈ omitted ↔ ∃ file ∈ f.files, file.1.IsNotePath ∧ Becomes c file (.inl o)) ∧
      (∀ o ∈ omitted, (o.level = "DEBUG" ↔ c.excludes o.path = .ok true) ∧
        (o.level = "WARNING" ↔ c.excludes o.path = .ok false)) ∧
      (kept.map Prod.fst ++ omitted.map Omission.path).Nodup ∧
      f.AreIncreasing (kept.map Prod.fst) ∧ f.AreIncreasing (omitted.map Omission.path) ∧
      ∀ note ∈ kept, '\r' ∉ note.2.toList := by
  refine ⟨fun a ha b hb hanote hbnote heq => ?_, fun file _ => existsUnique_becomes hglobs file,
    fun other => notes_replaceOctets, ?_⟩
  · have hpath := text_injective_on_notes hproper (mem_noteFiles.2 ⟨ha, hanote⟩) (mem_noteFiles.2 ⟨hb, hbnote⟩) heq
    exact List.inj_on_of_nodup_map hproper.distinct ha hb hpath
  -- both lists are read off one list of outcomes, one for each file in order
  obtain ⟨⟨kept, omitted⟩, hnotes⟩ := (exists_notes_iff (f := f)).2 (.inr hglobs)
  obtain ⟨all, hall, rfl, rfl⟩ := notes_eq_ok_iff.1 hnotes
  have hmem : ∀ outcome, outcome ∈ all ↔ ∃ file ∈ f.files, file.1.IsNotePath ∧ Becomes c file outcome := fun outcome => by
    rw [mem_outcomes_iff hall]
    simp only [mem_noteFiles, and_assoc]
  refine ⟨_, _, hnotes, fun note => ?_, fun o => ?_, fun o ho => ?_, ?_, ?_, ?_, fun note hnote => ?_⟩
  · rw [mem_getRight?, hmem]
  · rw [mem_getLeft?, hmem]
  · obtain ⟨file, -, -, hbecomes⟩ := (hmem _).1 (mem_getLeft?.1 ho)
    exact hbecomes.level_iff
  · rw [(told_perm all).nodup_iff, map_toldPath hall]
    exact noteFiles_texts_nodup hproper
  · have hname : ∀ outcome note, Sum.getRight? outcome = some note → note.1 = toldPath outcome := fun outcome note h => by
      rw [Sum.getRight?_eq_some_iff.1 h]
      rfl
    obtain ⟨ps, hps, htold⟩ := exists_paths Sum.getRight? Prod.fst hname hall
    exact htold ▸ areIncreasing_of_sublist hproper hps
  · have hname : ∀ outcome o, Sum.getLeft? outcome = some o → o.path = toldPath outcome := fun outcome o h => by
      rw [Sum.getLeft?_eq_some_iff.1 h]
      rfl
    obtain ⟨ps, hps, htold⟩ := exists_paths Sum.getLeft? Omission.path hname hall
    exact htold ▸ areIncreasing_of_sublist hproper hps
  · obtain ⟨file, -, -, hbecomes⟩ := (hmem _).1 (mem_getRight?.1 hnote)
    cases hbecomes with
    | kept _ htext => exact htext.not_mem

/-- A note with line breaks of two kinds, one that is no text, one that is excluded and one in a hidden folder. -/
theorem notes_partition_archive :
    let c : Config := ⟨"1.0", [], ["_archive/**"], false⟩
    let f := (((empty.write ["b.md"] [0xFF]).write ["a.md"] ("x\r\ny\r".toList.flatMap String.utf8EncodeChar)).write
      ["_archive", "c.md"] [0xFF]).write [".git", "d.md"] []
    f.IsProper ∧ (∀ g ∈ c.excludeGlobs, Glob.IsUsable g) ∧ ∃ kept omitted, f.notes c = .ok (kept, omitted) ∧
      ("a.md", "x\ny\n") ∈ kept ∧ .excluded "_archive/c.md" ∈ omitted ∧ .noText "b.md" .invalidStart ∈ omitted := by
  intro c f
  have hproper : f.IsProper := by
    refine (((isProper_empty.write ?_).write ?_).write ?_).write ?_
    all_goals decide +kernel
  have husable := (c.exists_excludes_iff "a.md").1 ⟨false, by decide +kernel⟩
  obtain ⟨-, -, -, kept, omitted, hnotes, hkept, homitted, -⟩ := notes_partition f c hproper husable
  refine ⟨hproper, husable, kept, omitted, hnotes, (hkept _).2 ?_, (homitted _).2 ?_, (homitted _).2 ?_⟩
  · exact ⟨_, .tail _ (.head _), ⟨[], "a.md", by decide +kernel⟩,
      becomes_of_noteOf (by decide +kernel)⟩
  · exact ⟨_, .tail _ (.tail _ (.head _)), ⟨["_archive"], "c.md", by decide +kernel⟩, becomes_of_noteOf (by decide +kernel)⟩
  · exact ⟨_, .head _, ⟨[], "b.md", by decide +kernel⟩, becomes_of_noteOf (by decide +kernel)⟩

end Folder

end NoteVault
