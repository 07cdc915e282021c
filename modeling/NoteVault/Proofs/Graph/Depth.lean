import NoteVault.Proofs.Graph.Neighbourhood

/-!
With more steps a neighbourhood grows at its end: what fewer steps find keeps its place. A walk to the farthest note
passes a new note at each step, so that as many steps as there are notes find everything that any number of steps finds.
-/
namespace NoteVault

namespace VaultIndex

variable {i : VaultIndex} {start n : IndexedNote}

/-- A note that is reached at all has a distance. -/
theorem Walk.exists_distance {k : Nat} (h : i.Walk start k n) : ∃ l, i.IsDistance start l n := by
  classical
  have hreached : ∃ k, i.Walk start k n := ⟨k, h⟩
  exact ⟨Nat.find hreached, Nat.find_spec hreached, fun l hl => Nat.find_min' hreached hl⟩

/-- On the way to a note there is another one at each distance before. -/
theorem IsDistance.exists_nearer (hstart : start ∈ i.notes.values) {k : Nat} (h : i.IsDistance start k n) :
    ∃ nearer : List IndexedNote, nearer.Nodup ∧ nearer.length = k + 1 ∧
      ∀ m ∈ nearer, m ∈ i.notes.values ∧ i.Within start k m := by
  -- on the distance: the note itself is farther than all that its predecessor has on its way
  induction k generalizing n with
  | zero =>
    refine ⟨[n], List.nodup_singleton n, rfl, fun m hm => ?_⟩
    obtain rfl := List.mem_singleton.1 hm
    exact ⟨mem_values_of_walk hstart h.1, 0, le_rfl, h.1⟩
  | succ k ih =>
    obtain ⟨p, hp, -⟩ := h.exists_before
    obtain ⟨nearer, hnodup, hlength, hnearer⟩ := ih hp
    obtain ⟨hwithin, hnot⟩ := isDistance_succ.1 h
    have hnew : n ∉ nearer := fun hmem => hnot (hnearer n hmem).2
    refine ⟨n :: nearer, List.nodup_cons.2 ⟨hnew, hnodup⟩, by rw [List.length_cons, hlength], fun m hm => ?_⟩
    obtain rfl | hm := List.mem_cons.1 hm
    · exact ⟨mem_values_of_walk hstart h.1, hwithin⟩
    · exact ⟨(hnearer m hm).1, (hnearer m hm).2.mono k.le_succ⟩

/-- No note is as many steps away as there are notes. -/
theorem IsDistance.lt_length (hstart : start ∈ i.notes.values) {k : Nat} (h : i.IsDistance start k n) :
    k < i.notes.length := by
  obtain ⟨nearer, hnodup, hlength, hnearer⟩ := h.exists_nearer hstart
  have hsub : nearer ⊆ i.notes.values := fun m hm => (hnearer m hm).1
  have hle : nearer.length ≤ i.notes.values.length := (List.subperm_of_subset hnodup hsub).length_le
  rw [hlength, Dictionary.values, List.length_map] at hle
  omega

/-- As many steps as there are notes lead wherever any number of steps leads. -/
theorem within_iff_of_length_le (hstart : start ∈ i.notes.values) {k : Nat} (hk : i.notes.length ≤ k) :
    i.Within start k n ↔ ∃ l, i.Walk start l n := by
  constructor
  · rintro ⟨l, -, hwalk⟩
    exact ⟨l, hwalk⟩
  · rintro ⟨l, hwalk⟩
    obtain ⟨m, hm⟩ := hwalk.exists_distance
    have hlt := hm.lt_length hstart
    exact ⟨m, by omega, hm.1⟩

end VaultIndex

namespace VaultGraph

open VaultIndex

section Search

variable (g : VaultGraph)

/-- One more step of the search adds notes behind those that are there. -/
theorem prefix_discover_succ (steps : Nat) (visited last : List IndexedNote) :
    g.discover steps visited last <+: g.discover (steps + 1) visited last := by
  induction steps generalizing visited last with
  | zero =>
    rw [discover_succ]
    exact List.prefix_append visited _
  | succ steps ih =>
    rw [discover_succ, discover_succ (steps + 1)]
    exact ih _ _

theorem prefix_discover {steps more : Nat} (h : steps ≤ more) (visited last : List IndexedNote) :
    g.discover steps visited last <+: g.discover more visited last := by
  induction h with
  | refl => exact List.prefix_rfl
  | step _ ih => exact ih.trans (g.prefix_discover_succ _ visited last)

/-- Also without a step, the notes are those that the search discovers. -/
theorem notes_around {root : String} {start : IndexedNote} (h : g.noteById? root = some start) (depth : Nat) :
    (g.around root depth).notes = g.discover depth [start] [start] := by
  cases depth with
  | zero => rw [around_zero h]; rfl
  | succ depth => rw [around_succ h]

theorem prefix_around (root : String) {depth deeper : Nat} (h : depth ≤ deeper) :
    (g.around root depth).notes <+: (g.around root deeper).notes := by
  cases hroot : g.noteById? root with
  | none =>
    rw [around_none hroot]
    exact List.nil_prefix
  | some start =>
    rw [g.notes_around hroot, g.notes_around hroot]
    exact g.prefix_discover h [start] [start]

end Search

section Grown

variable {i : VaultIndex} {start : IndexedNote} {depth deeper : Nat} {near far : Neighbourhood}

/-- References between more notes are more references. -/
theorem Surrounds.references_sublist (hnear : Surrounds i start depth near) (hfar : Surrounds i start deeper far)
    (h : depth ≤ deeper) (hnotes : near.notes ⊆ far.notes) : near.references.Sublist far.references := by
  rw [hnear.references]
  split
  next => exact List.nil_sublist _
  next hdepth =>
    rw [hfar.references, if_neg (by omega)]
    refine List.monotone_filter_right _ fun e he => ?_
    obtain ⟨⟨p, hp, hsource⟩, q, hq, howner⟩ := of_decide_eq_true he
    exact decide_eq_true ⟨⟨p, hnotes hp, hsource⟩, q, hnotes hq, howner⟩

/-- With as many steps as there are notes, more steps find nothing more. -/
theorem Surrounds.eq_of_length_le (hstart : start ∈ i.notes.values) (hnear : Surrounds i start depth near)
    (hfar : Surrounds i start deeper far) (h : depth ≤ deeper) (hbegins : near.notes <+: far.notes)
    (hlength : i.notes.length ≤ depth) : far.notes = near.notes ∧ far.references = near.references := by
  have hsub : far.notes ⊆ near.notes := fun n hn => by
    rw [hfar.mem, within_iff_of_length_le hstart (hlength.trans h)] at hn
    rwa [hnear.mem, within_iff_of_length_le hstart hlength]
  have hnotes : near.notes = far.notes :=
    hbegins.eq_of_length_le (List.subperm_of_subset (hfar.nodup.of_map _) hsub).length_le
  -- the start is a note, so there is a step, and with it references
  have hsome : 0 < i.notes.length := by
    rw [← List.length_map (·.2)]
    exact List.length_pos_of_mem hstart
  refine ⟨hnotes.symm, ?_⟩
  rw [hnear.references, hfar.references, if_neg (by omega), if_neg (by omega), hnotes]

end Grown

section Around

variable {i : VaultIndex} (h : i.IsSound) (root : String) {depth deeper : Nat}
include h

theorem references_around_sublist (hdeeper : depth ≤ deeper) :
    ((ofIndex i).around root depth).references.Sublist ((ofIndex i).around root deeper).references := by
  cases hroot : (ofIndex i).noteById? root with
  | none =>
    rw [around_none hroot]
    exact List.nil_sublist _
  | some start =>
    have hnotes := (ofIndex i).prefix_around root hdeeper
    exact (surrounds_around h hroot depth).references_sublist (surrounds_around h hroot deeper) hdeeper hnotes.subset

theorem around_eq_of_length_le (hdeeper : depth ≤ deeper) (hlength : i.notes.length ≤ depth) :
    ((ofIndex i).around root deeper).notes = ((ofIndex i).around root depth).notes ∧
      ((ofIndex i).around root deeper).references = ((ofIndex i).around root depth).references := by
  cases hroot : (ofIndex i).noteById? root with
  | none =>
    rw [around_none hroot, around_none hroot]
    exact ⟨rfl, rfl⟩
  | some start =>
    obtain ⟨hstart, -⟩ := (noteById?_iff h).1 hroot
    have hnotes := (ofIndex i).prefix_around root hdeeper
    exact (surrounds_around h hroot depth).eq_of_length_le hstart
      (surrounds_around h hroot deeper) hdeeper hnotes hlength

/-- With as many steps as there are notes, a neighbourhood holds all that is reached. -/
theorem mem_around_iff_walk (hlength : i.notes.length ≤ depth) {start : IndexedNote} (hstart : start ∈ i.notes.values)
    (howner : i.owners.get? root = some start.path) (n : IndexedNote) :
    n ∈ ((ofIndex i).around root depth).notes ↔ ∃ k, i.Walk start k n := by
  rw [mem_around h hstart howner, within_iff_of_length_le hstart hlength]

end Around

/-- A neighbourhood of more steps goes on from one of fewer: its notes begin with the others' and its references hold
theirs, in their order. As many steps as there are notes find all notes that are reached at all, so that more steps
change nothing. -/
theorem neighbourhood_grows {r : Registry} {config : Config} {files : List (String × String)} {i : VaultIndex}
    (h : build r config files = .ok i) (root : String) {depth deeper : Int} (hdepth : 0 ≤ depth) (hdeeper : depth ≤ deeper) :
    ∃ near far, (ofIndex i).neighbourhood root depth = .ok near ∧ (ofIndex i).neighbourhood root deeper = .ok far ∧
      near.notes <+: far.notes ∧ near.references.Sublist far.references ∧
      (i.notes.length ≤ depth → far.notes = near.notes ∧ far.references = near.references ∧
        ∀ start ∈ i.notes.values, i.owners.get? root = some start.path →
          ∀ n, n ∈ near.notes ↔ ∃ k, i.Walk start k n) := by
  obtain ⟨entries, -, rfl⟩ := exists_entries_of_build h
  have hsound := isSound_ofNotes entries
  have hle : depth.toNat ≤ deeper.toNat := by omega
  refine ⟨_, _, if_neg (Int.not_lt.2 hdepth), if_neg (Int.not_lt.2 (hdepth.trans hdeeper)), ?_, ?_, fun hlength => ?_⟩
  · exact (ofIndex _).prefix_around root hle
  · exact references_around_sublist hsound root hle
  · have hmany : (ofNotes entries).notes.length ≤ depth.toNat := by omega
    obtain ⟨hnotes, hreferences⟩ := around_eq_of_length_le hsound root hle hmany
    exact ⟨hnotes, hreferences, fun _ hstart howner => mem_around_iff_walk hsound root hmany hstart howner⟩

/-- A chain of three notes: a second step finds the third note, and a fourth step finds nothing. -/
theorem neighbourhood_grows_chain :
    let files := [("a.md", "---\ntype: idea\nid: x\nprojects: [y]\n---"), ("b.md", "---\ntype: idea\nid: y\nprojects: [z]\n---"),
      ("c.md", "---\ntype: idea\nid: z\n---")]
    ∃ i one three four, build .standard .default files = .ok i ∧ i.notes.length = 3 ∧
      (ofIndex i).neighbourhood "x" 1 = .ok one ∧ (ofIndex i).neighbourhood "x" 3 = .ok three ∧
      (ofIndex i).neighbourhood "x" 4 = .ok four ∧ one.notes.map (·.path) = ["a.md", "b.md"] ∧
      three.notes.map (·.path) = ["a.md", "b.md", "c.md"] ∧ one.notes <+: three.notes ∧
      one.references.Sublist three.references ∧ four.notes = three.notes ∧ four.references = three.references := by
  intro files
  have hbuilt : ((build .standard .default files).toOption.any fun i => i.notes.length = 3 ∧
      (((ofIndex i).neighbourhood "x" 1).toOption.any fun one => one.notes.map (·.path) = ["a.md", "b.md"]) ∧
      ((ofIndex i).neighbourhood "x" 3).toOption.any fun three =>
        three.notes.map (·.path) = ["a.md", "b.md", "c.md"]) = true := by decide +kernel
  clear_value files
  obtain ⟨i, hi, hany⟩ := exists_of_toOption_any hbuilt
  obtain ⟨hlength, hone, hthree⟩ := of_decide_eq_true hany
  obtain ⟨one, hone, honenotes⟩ := exists_of_toOption_any hone
  obtain ⟨three, hthree, hthreenotes⟩ := exists_of_toOption_any hthree
  obtain ⟨one', three', hone', hthree', hbegins, hsublist, -⟩ :=
    neighbourhood_grows hi "x" (show (0 : Int) ≤ 1 by decide) (show (1 : Int) ≤ 3 by decide)
  obtain ⟨three'', four, hthree'', hfour, -, -, hsame⟩ :=
    neighbourhood_grows hi "x" (show (0 : Int) ≤ 3 by decide) (show (3 : Int) ≤ 4 by decide)
  obtain rfl := Except.ok.inj (hone.symm.trans hone')
  obtain rfl := Except.ok.inj (hthree.symm.trans hthree')
  obtain rfl := Except.ok.inj (hthree.symm.trans hthree'')
  obtain ⟨hnotes, hreferences, -⟩ := hsame (by omega)
  exact ⟨i, _, _, four, hi, hlength, hone, hthree, hfour, of_decide_eq_true honenotes, of_decide_eq_true hthreenotes,
    hbegins, hsublist, hnotes, hreferences⟩

end VaultGraph

end NoteVault
