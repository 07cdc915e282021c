import NoteVault.Graph.Neighbourhood
import NoteVault.Proofs.Index.Consistency

/-!
The notes around a note are those that walks of a bounded number of steps reach, the nearest first: a search in
breadth holds at each step all notes within that many steps, and goes on from the farthest of them.
-/
namespace NoteVault

namespace VaultIndex

/-- One step in the graph of notes, along a reference to the owner of an identity or against a reference that names
the identity of the note. -/
def Adjacent (i : VaultIndex) (p q : IndexedNote) : Prop :=
  (∃ e ∈ i.references, e.source = p.path ∧ i.owners.get? e.target = some q.path) ∨
    ∃ identity, p.id = some identity ∧ ∃ e ∈ i.references, e.target = identity ∧ e.source = q.path

/-- A number of steps lead from one note of the index to another. -/
inductive Walk (i : VaultIndex) (start : IndexedNote) : Nat → IndexedNote → Prop
  | here : Walk i start 0 start
  | step {k : Nat} {p q : IndexedNote} : Walk i start k p → q ∈ i.notes.values → i.Adjacent p q → Walk i start (k + 1) q

/-- At most so many steps lead to a note. -/
def Within (i : VaultIndex) (start : IndexedNote) (k : Nat) (n : IndexedNote) : Prop := ∃ l ≤ k, i.Walk start l n

/-- The least number of steps to a note. -/
def IsDistance (i : VaultIndex) (start : IndexedNote) (k : Nat) (n : IndexedNote) : Prop :=
  i.Walk start k n ∧ ∀ l, i.Walk start l n → k ≤ l

variable {i : VaultIndex} {start n : IndexedNote}

theorem Within.mono {k l : Nat} (h : i.Within start k n) (hkl : k ≤ l) : i.Within start l n := by
  obtain ⟨m, hm, hwalk⟩ := h
  exact ⟨m, hm.trans hkl, hwalk⟩

theorem within_succ {k : Nat} : i.Within start (k + 1) n ↔ i.Within start k n ∨ i.Walk start (k + 1) n := by
  constructor
  · rintro ⟨l, hl, hwalk⟩
    obtain hl | rfl := Nat.le_succ_iff.1 hl
    · exact .inl ⟨l, hl, hwalk⟩
    · exact .inr hwalk
  · rintro (h | hwalk)
    · exact h.mono k.le_succ
    · exact ⟨k + 1, le_rfl, hwalk⟩

/-- A first walk of so many steps goes on from a first walk of one step less. -/
theorem IsDistance.exists_before {k : Nat} (h : i.IsDistance start (k + 1) n) :
    ∃ p, i.IsDistance start k p ∧ i.Adjacent p n := by
  obtain ⟨hwalk, hleast⟩ := h
  cases hwalk with
  | step hp hn hadj => exact ⟨_, ⟨hp, fun l hl => Nat.le_of_succ_le_succ (hleast _ (hl.step hn hadj))⟩, hadj⟩

theorem isDistance_succ {k : Nat} : i.IsDistance start (k + 1) n ↔ i.Within start (k + 1) n ∧ ¬i.Within start k n := by
  constructor
  · exact fun h => ⟨⟨_, le_rfl, h.1⟩, fun ⟨l, hl, hwalk⟩ => absurd (h.2 l hwalk) (by omega)⟩
  · rintro ⟨hwithin, hnot⟩
    refine ⟨(within_succ.1 hwithin).resolve_left hnot, fun l hl => ?_⟩
    by_contra hlt
    exact hnot ⟨l, by omega, hl⟩

theorem mem_values_of_walk (hstart : start ∈ i.notes.values) {k : Nat} (h : i.Walk start k n) : n ∈ i.notes.values := by
  cases h with
  | here => exact hstart
  | step _ hn _ => exact hn

end VaultIndex

namespace VaultGraph

open VaultIndex

@[simp] theorem index_ofIndex (i : VaultIndex) : (ofIndex i).index = i := rfl

/-- References that are collected one after another are grouped by their targets. -/
theorem byTarget_eq (references : List Reference) :
    byTarget references = Dictionary.grouped (references.map fun e => (e.target, e)) := by
  rw [← Dictionary.foldl_push, List.foldl_map]
  rfl

/-- The collected references to an identity are those that a walk through all references finds. -/
theorem referencesTo_ofIndex (i : VaultIndex) (identity : String) :
    (ofIndex i).referencesTo identity = i.references.filter (·.target = identity) := by
  rw [referencesTo, ofIndex, byTarget_eq, Dictionary.getD_grouped, List.filter_map, List.map_map]
  exact List.map_id _

section Steps

variable {i : VaultIndex} (h : i.IsSound)
include h

theorem noteById?_iff {identity : String} {n : IndexedNote} :
    (ofIndex i).noteById? identity = some n ↔ n ∈ i.notes.values ∧ i.owners.get? identity = some n.path := by
  rw [noteById?, index_ofIndex, ownerOf?, Option.bind_eq_some_iff]
  constructor
  · rintro ⟨path, howner, hget⟩
    obtain ⟨hn, rfl⟩ := h.get?_iff.1 hget
    exact ⟨hn, howner⟩
  · rintro ⟨hn, howner⟩
    exact ⟨n.path, howner, h.get?_iff.2 ⟨hn, rfl⟩⟩

theorem mem_neighbours {p q : IndexedNote} :
    q ∈ (ofIndex i).neighbours p ↔ q ∈ i.notes.values ∧ i.Adjacent p q := by
  have hnamed : q ∈ ((ofIndex i).referencesFrom p.path).filterMap (fun e => (ofIndex i).noteById? e.target) ↔
      q ∈ i.notes.values ∧ ∃ e ∈ i.references, e.source = p.path ∧ i.owners.get? e.target = some q.path := by
    simp only [List.mem_filterMap, noteById?_iff h, referencesFrom, index_ofIndex, List.mem_filter, decide_eq_true_eq]
    exact ⟨fun ⟨e, ⟨he, hs⟩, hq, ho⟩ => ⟨hq, e, he, hs, ho⟩, fun ⟨hq, e, he, hs, ho⟩ => ⟨e, ⟨he, hs⟩, hq, ho⟩⟩
  have hnaming : ∀ identity, q ∈ (ofIndex i).sourcesOf identity ↔
      q ∈ i.notes.values ∧ ∃ e ∈ i.references, e.target = identity ∧ e.source = q.path := fun identity => by
    rw [sourcesOf, referencesTo_ofIndex]
    simp only [List.mem_filterMap, index_ofIndex, h.get?_iff, List.mem_filter, decide_eq_true_eq]
    exact ⟨fun ⟨e, ⟨he, ht⟩, hq, hs⟩ => ⟨hq, e, he, ht, hs.symm⟩, fun ⟨hq, e, he, ht, hs⟩ => ⟨e, ⟨he, ht⟩, hq, hs.symm⟩⟩
  rw [neighbours, List.mem_append, hnamed, Adjacent, and_or_left]
  refine or_congr_right ?_
  cases hid : p.id with
  | none => simp
  | some identity =>
    rw [hnaming]
    simp only [Option.some.injEq, exists_eq_left']

end Steps

section Search

variable {seen : List String} {found : List IndexedNote}

theorem mem_of_mem_unseen {n : IndexedNote} (h : n ∈ unseen seen found) : n ∈ found ∧ n.path ∉ seen := by
  induction found generalizing seen with
  | nil => cases h
  | cons m rest ih =>
    rw [unseen] at h
    split at h
    next => exact (ih h).imp_left (List.mem_cons_of_mem _)
    next hm =>
      obtain rfl | h := List.mem_cons.1 h
      · exact ⟨List.mem_cons_self, hm⟩
      · obtain ⟨hn, hseen⟩ := ih h
        exact ⟨List.mem_cons_of_mem _ hn, fun hs => hseen (List.mem_cons_of_mem _ hs)⟩

/-- Every path that has not been seen is found. -/
theorem path_mem_unseen {path : String} :
    path ∈ (unseen seen found).map (·.path) ↔ path ∈ found.map (·.path) ∧ path ∉ seen := by
  induction found generalizing seen with
  | nil => simp [unseen]
  | cons m rest ih =>
    rw [unseen]
    split
    next hm =>
      rw [ih, List.map_cons, List.mem_cons]
      refine ⟨fun ⟨hrest, hseen⟩ => ⟨.inr hrest, hseen⟩, fun ⟨hpath, hseen⟩ => ⟨hpath.resolve_left ?_, hseen⟩⟩
      rintro rfl
      exact hseen hm
    next hm =>
      rw [List.map_cons, List.map_cons, List.mem_cons, List.mem_cons, ih, List.mem_cons, not_or]
      by_cases hpath : path = m.path <;> simp [hpath, hm]

theorem nodup_unseen (seen : List String) (found : List IndexedNote) : ((unseen seen found).map (·.path)).Nodup := by
  induction found generalizing seen with
  | nil => exact List.nodup_nil
  | cons m rest ih =>
    rw [unseen]
    split
    · exact ih seen
    · exact List.nodup_cons.2 ⟨fun hm => (path_mem_unseen.1 hm).2 List.mem_cons_self, ih _⟩

variable {g : VaultGraph} {visited last : List IndexedNote}

theorem discover_nil (steps : Nat) : g.discover steps visited [] = visited := by
  cases steps <;> rfl

/-- One step of the search; where nothing is found, the remaining steps find nothing either. -/
theorem discover_succ (steps : Nat) : g.discover (steps + 1) visited last =
    g.discover steps (visited ++ unseen (visited.map (·.path)) (last.flatMap g.neighbours))
      (unseen (visited.map (·.path)) (last.flatMap g.neighbours)) := by
  rw [discover]
  split
  next hnone => rw [hnone, discover_nil, List.append_nil]
  next => rfl

end Search

/-- A search holds the notes up to a distance, each once and the nearest first, and knows the farthest of them. -/
structure IsExplored (i : VaultIndex) (start : IndexedNote) (k : Nat) (visited last : List IndexedNote) : Prop where
  first : visited.head? = some start
  nodup : (visited.map (·.path)).Nodup
  mem : ∀ n, n ∈ visited ↔ i.Within start k n
  last : ∀ n, n ∈ last ↔ i.IsDistance start k n
  ordered : visited.Pairwise fun a b => ∀ l, i.Within start l b → i.Within start l a

section Explored

variable {i : VaultIndex} {start : IndexedNote}

theorem isExplored_start (i : VaultIndex) (start : IndexedNote) : IsExplored i start 0 [start] [start] where
  first := rfl
  nodup := by simp
  mem n := by
    rw [List.mem_singleton]
    constructor
    · rintro rfl
      exact ⟨0, le_rfl, .here⟩
    · rintro ⟨l, hl, hwalk⟩
      obtain rfl := Nat.le_zero.1 hl
      cases hwalk
      rfl
  last n := by
    rw [List.mem_singleton]
    constructor
    · rintro rfl
      exact ⟨.here, fun l _ => l.zero_le⟩
    · rintro ⟨hwalk, -⟩
      cases hwalk
      rfl
  ordered := List.pairwise_singleton _ _

/-- A step finds the notes at the next distance. -/
theorem mem_unseen_neighbours (h : i.IsSound) (hstart : start ∈ i.notes.values) {k : Nat}
    {visited last : List IndexedNote}
    (hexplored : IsExplored i start k visited last) (n : IndexedNote) :
    n ∈ unseen (visited.map (·.path)) (last.flatMap (ofIndex i).neighbours) ↔ i.IsDistance start (k + 1) n := by
  have hvalues : ∀ {n l}, i.Within start l n → n ∈ i.notes.values :=
    fun ⟨_, _, hwalk⟩ => mem_values_of_walk hstart hwalk
  have hnext : ∀ n, n ∈ last.flatMap (ofIndex i).neighbours ↔
      ∃ p, i.IsDistance start k p ∧ n ∈ i.notes.values ∧ i.Adjacent p n := fun n => by
    simp only [List.mem_flatMap, hexplored.last, mem_neighbours h]
  constructor
  · intro hn
    obtain ⟨hn, hseen⟩ := mem_of_mem_unseen hn
    obtain ⟨p, hp, hn, hadj⟩ := (hnext n).1 hn
    refine isDistance_succ.2 ⟨⟨k + 1, le_rfl, hp.1.step hn hadj⟩, fun hwithin => hseen ?_⟩
    exact List.mem_map_of_mem ((hexplored.mem n).2 hwithin)
  · intro hn
    obtain ⟨hwithin, hnot⟩ := isDistance_succ.1 hn
    obtain ⟨p, hp, hadj⟩ := hn.exists_before
    have hn := hvalues hwithin
    have hpath : n.path ∈ (unseen (visited.map (·.path)) (last.flatMap (ofIndex i).neighbours)).map (·.path) := by
      refine path_mem_unseen.2 ⟨List.mem_map_of_mem ((hnext n).2 ⟨p, hp, hn, hadj⟩), fun hseen => hnot ?_⟩
      obtain ⟨m, hm, heq⟩ := List.mem_map.1 hseen
      rw [hexplored.mem] at hm
      exact h.eq_of_path (hvalues hm) hn heq ▸ hm
    obtain ⟨m, hm, heq⟩ := List.mem_map.1 hpath
    obtain ⟨q, -, hm', -⟩ := (hnext m).1 (mem_of_mem_unseen hm).1
    exact h.eq_of_path hm' hn heq ▸ hm

theorem IsExplored.step (h : i.IsSound) (hstart : start ∈ i.notes.values) {k : Nat} {visited last : List IndexedNote}
    (hexplored : IsExplored i start k visited last) :
    IsExplored i start (k + 1) (visited ++ unseen (visited.map (·.path)) (last.flatMap (ofIndex i).neighbours))
      (unseen (visited.map (·.path)) (last.flatMap (ofIndex i).neighbours)) := by
  have hfound := mem_unseen_neighbours h hstart hexplored
  exact {
    first := by rw [List.head?_append, hexplored.first, Option.some_or]
    nodup := by
      rw [List.map_append]
      refine List.nodup_append.2 ⟨hexplored.nodup, nodup_unseen _ _, ?_⟩
      rintro path hpath _ hpath' rfl
      exact (path_mem_unseen.1 hpath').2 hpath
    mem := fun n => by
      rw [List.mem_append, hexplored.mem, hfound, isDistance_succ]
      constructor
      · rintro (hwithin | ⟨hwithin, -⟩)
        · exact hwithin.mono k.le_succ
        · exact hwithin
      · exact fun hwithin => or_iff_not_imp_left.2 fun hnot => ⟨hwithin, hnot⟩
    last := hfound
    ordered := by
      -- a note that is found now is not within `k` steps, and all that is held is within `k + 1` steps
      have hlate : ∀ a b, i.Within start (k + 1) a →
          b ∈ unseen (visited.map (·.path)) (last.flatMap (ofIndex i).neighbours) →
          ∀ l, i.Within start l b → i.Within start l a := fun a b ha hb l hl => by
        have hnot := (isDistance_succ.1 ((hfound b).1 hb)).2
        exact ha.mono (Nat.lt_of_not_le fun hle => hnot (hl.mono hle))
      refine List.pairwise_append.2 ⟨hexplored.ordered, ?_, fun a ha b hb => ?_⟩
      · exact List.pairwise_of_forall_mem_list fun a ha b hb => hlate a b (isDistance_succ.1 ((hfound a).1 ha)).1 hb
      · exact hlate a b (((hexplored.mem a).1 ha).mono k.le_succ) hb }

theorem isExplored_discover (h : i.IsSound) (hstart : start ∈ i.notes.values) (steps : Nat) {k : Nat}
    {visited last : List IndexedNote} (hexplored : IsExplored i start k visited last) :
    ∃ last', IsExplored i start (k + steps) ((ofIndex i).discover steps visited last) last' := by
  -- on the steps that are left; `k` of them are done
  induction steps generalizing k visited last with
  | zero => exact ⟨last, hexplored⟩
  | succ steps ih =>
    rw [discover_succ, ← Nat.add_assoc, Nat.add_right_comm]
    exact ih (hexplored.step h hstart)

end Explored

/-- The notes within a number of steps of a note, and the references between them. -/
structure Surrounds (i : VaultIndex) (start : IndexedNote) (depth : Nat) (nb : Neighbourhood) : Prop where
  first : nb.notes.head? = some start
  nodup : (nb.notes.map (·.path)).Nodup
  mem : ∀ n, n ∈ nb.notes ↔ i.Within start depth n
  /-- The nearest notes come first. -/
  ordered : nb.notes.Pairwise fun a b => ∀ k l, i.IsDistance start k a → i.IsDistance start l b → k ≤ l
  /-- Without a step there are no references, else those from one of the notes to one of them, in their order. -/
  references : nb.references = if depth = 0 then [] else
    i.references.filter fun e => (∃ n ∈ nb.notes, n.path = e.source) ∧ ∃ n ∈ nb.notes,
      i.owners.get? e.target = some n.path

/-- The neighbourhood of an identity is that of the note that owns it, and empty where no note does. -/
structure IsNeighbourhood (i : VaultIndex) (root : String) (depth : Nat) (nb : Neighbourhood) : Prop where
  identity : nb.root = root
  steps : nb.depth = depth
  unknown : i.owners.get? root = none → nb.notes = [] ∧ nb.references = []
  known : ∀ path, i.owners.get? root = some path →
    ∃ start ∈ i.notes.values, start.path = path ∧ Surrounds i start depth nb

theorem referencesAmong_ofIndex (i : VaultIndex) (notes : List IndexedNote) : (ofIndex i).referencesAmong notes =
    i.references.filter fun e => (∃ n ∈ notes, n.path = e.source) ∧ ∃ n ∈ notes,
      i.owners.get? e.target = some n.path := by
  refine List.filter_congr fun e _ => ?_
  rw [Bool.eq_iff_iff, Bool.and_eq_true, decide_eq_true_iff, index_ofIndex, ownerOf?, Option.any_eq_true]
  simp only [List.contains_iff_mem, List.mem_map]
  refine and_congr_right fun _ => ⟨?_, ?_⟩
  · rintro ⟨path, howner, n, hn, rfl⟩
    exact ⟨n, hn, howner⟩
  · rintro ⟨n, hn, howner⟩
    exact ⟨n.path, howner, n, hn, rfl⟩

theorem IsExplored.ordered_distance {i : VaultIndex} {start : IndexedNote} {k : Nat} {visited last : List IndexedNote}
    (h : IsExplored i start k visited last) :
    visited.Pairwise fun a b => ∀ k l, i.IsDistance start k a → i.IsDistance start l b → k ≤ l := by
  refine h.ordered.imp fun {a b} hnear k l ha hb => ?_
  obtain ⟨m, hm, hwalk⟩ := hnear l ⟨l, le_rfl, hb.1⟩
  exact (ha.2 m hwalk).trans hm

section Around

variable {g : VaultGraph} {root : String} {start : IndexedNote}

theorem around_none (h : g.noteById? root = none) (depth : Nat) : g.around root depth = ⟨root, depth, [], []⟩ := by
  unfold around
  rw [h]

theorem around_zero (h : g.noteById? root = some start) : g.around root 0 = ⟨root, 0, [start], []⟩ := by
  unfold around
  rw [h]
  rfl

theorem around_succ (h : g.noteById? root = some start) (depth : Nat) : g.around root (depth + 1) =
    ⟨root, depth + 1, g.discover (depth + 1) [start] [start],
      g.referencesAmong (g.discover (depth + 1) [start] [start])⟩ := by
  unfold around
  rw [h]
  rfl

end Around

theorem surrounds_around {i : VaultIndex} (h : i.IsSound) {root : String} {start : IndexedNote}
    (hroot : (ofIndex i).noteById? root = some start) (depth : Nat) :
    Surrounds i start depth ((ofIndex i).around root depth) := by
  obtain ⟨hstart, -⟩ := (noteById?_iff h).1 hroot
  cases depth with
  | zero =>
    have hexplored := isExplored_start i start
    rw [around_zero hroot]
    exact ⟨hexplored.first, hexplored.nodup, hexplored.mem, hexplored.ordered_distance, rfl⟩
  | succ depth =>
    obtain ⟨last, hexplored⟩ := isExplored_discover h hstart (depth + 1) (isExplored_start i start)
    rw [Nat.zero_add] at hexplored
    rw [around_succ hroot]
    exact ⟨hexplored.first, hexplored.nodup, hexplored.mem, hexplored.ordered_distance, referencesAmong_ofIndex _ _⟩

/-- Around a note that owns its identity stand the notes within the number of steps. -/
theorem mem_around {i : VaultIndex} (h : i.IsSound) {start : IndexedNote} (hstart : start ∈ i.notes.values)
    {root : String}
    (howner : i.owners.get? root = some start.path) (depth : Nat) (n : IndexedNote) :
    n ∈ ((ofIndex i).around root depth).notes ↔ i.Within start depth n :=
  (surrounds_around h ((noteById?_iff h).2 ⟨hstart, howner⟩) depth).mem n

theorem isNeighbourhood_around {i : VaultIndex} (h : i.IsSound) (root : String) (depth : Nat) :
    IsNeighbourhood i root depth ((ofIndex i).around root depth) := by
  cases hroot : (ofIndex i).noteById? root with
  | none =>
    rw [around_none hroot]
    refine ⟨rfl, rfl, fun _ => ⟨rfl, rfl⟩, fun path howner => ?_⟩
    obtain ⟨e, he, rfl⟩ := List.mem_map.1 (h.owned root path howner)
    rw [noteById?, index_ofIndex, ownerOf?, howner, Option.bind_some, Dictionary.get?_of_mem h.keys he] at hroot
    cases hroot
  | some start =>
    have hsurrounds := surrounds_around h hroot depth
    obtain ⟨hstart, howner⟩ := (noteById?_iff h).1 hroot
    refine ⟨?_, ?_, fun hnone => ?_, fun path hpath => ⟨start, hstart, ?_, hsurrounds⟩⟩
    · cases depth <;> simp [around_zero hroot, around_succ hroot]
    · cases depth <;> simp [around_zero hroot, around_succ hroot]
    · rw [hnone] at howner
      cases howner
    · exact Option.some.inj (howner.symm.trans hpath)

/-- A neighbourhood in an index is exactly what lies within the number of steps, which must not be negative. -/
theorem neighbourhood_of_build {r : Registry} {config : Config} {files : List (String × String)} {i : VaultIndex}
    (h : build r config files = .ok i) (root : String) (depth : Int) :
    (depth < 0 → (ofIndex i).neighbourhood root depth = .error ⟨depth⟩) ∧
      (0 ≤ depth → ∃ nb, (ofIndex i).neighbourhood root depth = .ok nb ∧ IsNeighbourhood i root depth.toNat nb) := by
  obtain ⟨entries, -, rfl⟩ := exists_entries_of_build h
  refine ⟨fun hnegative => if_pos hnegative, fun hdepth => ⟨_, if_neg (Int.not_lt.2 hdepth), ?_⟩⟩
  exact isNeighbourhood_around (isSound_ofNotes entries) root depth.toNat

/-- A note that names another, is named by a third, and names a note that is not there. -/
theorem neighbourhood_of_build_three :
    let files := [("a.md", "---\ntype: idea\nid: x\nprojects: [y]\n---"), ("b.md", "---\ntype: idea\nid: y\nprojects: [z, q]\n---"),
      ("c.md", "---\ntype: idea\nid: z\n---"), ("d.md", "---\ntype: idea\nid: w\nprojects: [x]\n---")]
    ∃ i nb, build .standard .default files = .ok i ∧ (ofIndex i).neighbourhood "y" 1 = .ok nb ∧
      nb.notes.map (·.path) = ["b.md", "c.md", "a.md"] ∧
      nb.references = [⟨"a.md", "y", "projects"⟩, ⟨"b.md", "z", "projects"⟩] ∧ IsNeighbourhood i "y" 1 nb := by
  intro files
  have hbuilt : ((build .standard .default files).toOption.any fun i =>
      ((ofIndex i).neighbourhood "y" 1).toOption.any fun nb => nb.notes.map (·.path) = ["b.md", "c.md", "a.md"] ∧
        nb.references = [⟨"a.md", "y", "projects"⟩, ⟨"b.md", "z", "projects"⟩]) = true := by decide +kernel
  clear_value files
  obtain ⟨i, hi, hany⟩ := exists_of_toOption_any hbuilt
  obtain ⟨nb, hnb, hnotes⟩ := exists_of_toOption_any hany
  obtain ⟨nb', hnb', hneighbourhood⟩ := (neighbourhood_of_build hi "y" 1).2 (by decide)
  obtain rfl : nb = nb' := Except.ok.inj (hnb.symm.trans hnb')
  obtain ⟨hpaths, hreferences⟩ := of_decide_eq_true hnotes
  exact ⟨i, nb, hi, hnb, hpaths, hreferences, hneighbourhood⟩

end VaultGraph

end NoteVault
