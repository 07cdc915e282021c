import NoteVault.Proofs.Graph.Neighbourhood

/-!
Where no two notes have the same identity, the notes around a note are those that it is around: a step along a
reference is undone by a step against it, so that every walk can be walked back. A note without an identity is
reached from nowhere along a reference, and nowhere leads against one from it, so it makes no difference.
-/
namespace NoteVault

namespace VaultIndex

variable {i : VaultIndex}

/-- An identity tells notes apart. -/
theorem eq_of_id (hids : (i.notes.values.filterMap (·.id)).Nodup) {n m : IndexedNote} (hn : n ∈ i.notes.values)
    (hm : m ∈ i.notes.values) {identity : String} (hnid : n.id = some identity) (hmid : m.id = some identity) :
      n = m := by
  by_contra hne
  rw [List.Nodup, List.pairwise_filterMap] at hids
  have hsymm : Std.Symm fun a b : IndexedNote => ∀ x, a.id = some x → ∀ y, b.id = some y → x ≠ y :=
    ⟨fun _ _ h x hx y hy heq => h y hy x hx heq.symm⟩
  exact @List.Pairwise.forall _ _ _ hsymm hids _ hn _ hm hne identity hnid identity hmid rfl

/-- With different identities, a note that has one owns it. -/
theorem owner_iff (hids : (i.notes.values.filterMap (·.id)).Nodup)
    (howner : ∀ identity,
      i.owners.get? identity = ((i.notes.values.filter (·.id = some identity)).getLast?).map (·.path))
    {identity path : String} :
    i.owners.get? identity = some path ↔ ∃ n ∈ i.notes.values, n.id = some identity ∧ n.path = path := by
  rw [howner, Option.map_eq_some_iff]
  constructor
  · rintro ⟨n, hlast, hpath⟩
    obtain ⟨hn, hid⟩ := List.mem_filter.1 (List.mem_of_getLast? hlast)
    exact ⟨n, hn, of_decide_eq_true hid, hpath⟩
  · rintro ⟨n, hn, hid, hpath⟩
    have hne : i.notes.values.filter (·.id = some identity) ≠ [] :=
      List.ne_nil_of_mem (List.mem_filter.2 ⟨hn, decide_eq_true hid⟩)
    refine ⟨_, List.getLast?_eq_some_getLast hne, ?_⟩
    obtain ⟨hm, hmid⟩ := List.mem_filter.1 (List.getLast_mem hne)
    rw [eq_of_id hids hm hn (of_decide_eq_true hmid) hid, hpath]

/-- Every step can be taken back. -/
def IsSymmetric (i : VaultIndex) : Prop :=
  ∀ p ∈ i.notes.values, ∀ q ∈ i.notes.values, i.Adjacent p q → i.Adjacent q p

theorem isSymmetric_of_ids (h : i.IsSound) (hids : (i.notes.values.filterMap (·.id)).Nodup)
    (howner : ∀ identity,
      i.owners.get? identity = ((i.notes.values.filter (·.id = some identity)).getLast?).map (·.path)) :
    i.IsSymmetric := by
  intro p hp q hq hadj
  obtain ⟨e, he, hsource, htarget⟩ | ⟨identity, hid, e, he, htarget, hsource⟩ := hadj
  · -- along a reference: its target is the identity of the note that it leads to
    obtain ⟨n, hn, hid, hpath⟩ := (owner_iff hids howner).1 htarget
    obtain rfl : n = q := h.eq_of_path hn hq hpath
    exact .inr ⟨e.target, hid, e, he, rfl, hsource⟩
  · -- against a reference: its target is owned by the note that has it
    have howned : i.owners.get? identity = some p.path := (owner_iff hids howner).2 ⟨p, hp, hid, rfl⟩
    exact .inl ⟨e, he, hsource, htarget ▸ howned⟩

/-- A walk with one more step before it. -/
theorem Walk.after_step {p start n : IndexedNote} {k : Nat} (hstart : start ∈ i.notes.values)
    (hadj : i.Adjacent p start)
    (h : i.Walk start k n) : i.Walk p (k + 1) n := by
  induction h with
  | here => exact .step .here hstart hadj
  | step _ hq hadj' ih => exact .step ih hq hadj'

/-- A walk is walked back step by step, the last one first. -/
theorem Walk.back (hsymm : i.IsSymmetric) {start n : IndexedNote} {k : Nat} (hstart : start ∈ i.notes.values)
    (h : i.Walk start k n) : i.Walk n k start := by
  induction h with
  | here => exact .here
  | step hwalk hq hadj ih =>
    have hp := mem_values_of_walk hstart hwalk
    exact ih.after_step hp (hsymm _ hp _ hq hadj)

theorem within_comm (hsymm : i.IsSymmetric) {a b : IndexedNote} (ha : a ∈ i.notes.values) (hb : b ∈ i.notes.values)
    (k : Nat) : i.Within a k b ↔ i.Within b k a := by
  constructor
  · rintro ⟨l, hl, hwalk⟩
    exact ⟨l, hl, hwalk.back hsymm ha⟩
  · rintro ⟨l, hl, hwalk⟩
    exact ⟨l, hl, hwalk.back hsymm hb⟩

end VaultIndex

namespace VaultGraph

open VaultIndex

/-- Neighbourhoods of notes with different identities are symmetric, whatever the number of steps. -/
theorem neighbourhood_symm {r : Registry} {config : Config} {files : List (String × String)} {i : VaultIndex}
    (hpaths : (files.map (·.1)).Nodup) (h : build r config files = .ok i) (hids : (i.notes.values.filterMap (·.id)).Nodup)
    {a b : IndexedNote} (ha : a ∈ i.notes.values) (hb : b ∈ i.notes.values) {x y : String} (hx : a.id = some x)
    (hy : b.id = some y) {depth : Int} (hdepth : 0 ≤ depth) :
    ∃ na nb, (ofIndex i).neighbourhood x depth = .ok na ∧ (ofIndex i).neighbourhood y depth = .ok nb ∧
      (b ∈ na.notes ↔ a ∈ nb.notes) := by
  obtain ⟨entries, hread, rfl⟩ := exists_entries_of_build h
  have hsound := isSound_ofNotes entries
  have howner := owner_ofNotes ((paths_entries (hread.imp fun _ _ h => isRead_readNote h)).symm ▸ hpaths)
  have hsymm := isSymmetric_of_ids hsound hids howner
  have hna := mem_around hsound ha ((owner_iff hids howner).2 ⟨a, ha, hx, rfl⟩) depth.toNat b
  have hnb := mem_around hsound hb ((owner_iff hids howner).2 ⟨b, hb, hy, rfl⟩) depth.toNat a
  refine ⟨_, _, if_neg (Int.not_lt.2 hdepth), if_neg (Int.not_lt.2 hdepth), ?_⟩
  rw [hna, hnb]
  exact within_comm hsymm ha hb depth.toNat

/-- Two notes that only a note without an identity joins, which names both. -/
theorem neighbourhood_symm_joined :
    let files := [("a.md", "---\ntype: idea\nid: x\n---"), ("m.md", "---\ntype: idea\nprojects: [y, x]\n---"),
      ("b.md", "---\ntype: idea\nid: y\n---")]
    ∃ i a b na nb, build .standard .default files = .ok i ∧ i.notes.get? "a.md" = some a ∧ i.notes.get? "b.md" = some b ∧
      (i.notes.values.filterMap (·.id)).Nodup ∧ a.id = some "x" ∧ b.id = some "y" ∧
      (ofIndex i).neighbourhood "x" 2 = .ok na ∧ (ofIndex i).neighbourhood "y" 2 = .ok nb ∧
      na.notes.map (·.path) = ["a.md", "m.md", "b.md"] ∧ (b ∈ na.notes ↔ a ∈ nb.notes) := by
  intro files
  have hpaths : (files.map (·.1)).Nodup := by decide
  have hbuilt : ((build .standard .default files).toOption.any fun i =>
      i.notes.values.filterMap (·.id) = ["x", "y"] ∧ (i.notes.get? "a.md").any (·.id = some "x") ∧
        (i.notes.get? "b.md").any (·.id = some "y") ∧ ((ofIndex i).neighbourhood "x" 2).toOption.any fun na =>
          na.notes.map (·.path) = ["a.md", "m.md", "b.md"]) = true := by decide +kernel
  clear_value files
  obtain ⟨i, hi, hany⟩ := exists_of_toOption_any hbuilt
  obtain ⟨hids, ha, hb, hna⟩ := of_decide_eq_true hany
  obtain ⟨a, ha, hx⟩ := Option.any_eq_true _ _ |>.1 ha
  obtain ⟨b, hb, hy⟩ := Option.any_eq_true _ _ |>.1 hb
  have hmem : ∀ {path n}, i.notes.get? path = some n → n ∈ i.notes.values := fun hget =>
    List.mem_map_of_mem (f := (·.2)) (Dictionary.mem_of_get? hget)
  have hnodup : (i.notes.values.filterMap (·.id)).Nodup := by rw [hids]; decide
  obtain ⟨na, nb, hna', hnb, hiff⟩ := neighbourhood_symm hpaths hi hnodup (hmem ha) (hmem hb) (of_decide_eq_true hx)
    (of_decide_eq_true hy) (show (0 : Int) ≤ 2 by decide)
  obtain ⟨_, heq, hnotes⟩ := exists_of_toOption_any hna
  obtain rfl := Except.ok.inj (heq.symm.trans hna')
  exact ⟨i, a, b, _, nb, hi, ha, hb, hnodup, of_decide_eq_true hx, of_decide_eq_true hy, hna', hnb, of_decide_eq_true hnotes, hiff⟩

end VaultGraph

end NoteVault
