import NoteVault.Proofs.Dictionary
import NoteVault.Proofs.Yaml.Node.Loaded
import NoteVault.Proofs.Yaml.Node.Sources
import NoteVault.Proofs.Yaml.Read

/-!
Mappings by the texts of their keys. What a node becomes does not depend on the number of steps that are allowed for it;
a mapping becomes a dictionary in which scalar keys are their own texts, every key stands where it stands first, and its
value is that of the entry whose source beats those of all others with the key.
-/
namespace NoteVault.Yaml.Node

/-- The nodes that a node is built of. -/
def parts (n : Node) : List Node :=
  n.items ++ (n.flatEntries.toOption.getD []).map (·.2) ++ n.itemPairs.flatMap fun (k, v) => [k, v]

theorem depth_lt_of_mem_parts {n m : Node} (h : m ∈ n.parts) : m.depth < n.depth := by
  rw [parts, List.append_assoc, List.mem_append, List.mem_append] at h
  rcases h with h | h | h
  · exact depth_lt_of_item h
  · obtain ⟨o, ho, rfl⟩ := List.mem_map.1 h
    cases hflat : n.flatEntries with
    | ok pairs =>
      rw [hflat] at ho
      exact (depth_lt_of_flatEntries hflat o ho).2
    | error e =>
      rw [hflat] at ho
      cases ho
  · obtain ⟨o, ho, hm⟩ := List.mem_flatMap.1 h
    have := depth_lt_of_mem_itemPairs ho
    simp only [List.mem_cons, List.not_mem_nil, or_false] at hm
    obtain rfl | rfl := hm <;> omega

/-- Enough steps make no difference. -/
theorem valueFrom_congr {texts : KeyTexts} {fuel fuel' : Nat} {inside : Bool} {n : Node} (h : n.depth ≤ fuel)
    (h' : n.depth ≤ fuel') : valueFrom texts [] fuel inside n = valueFrom texts [] fuel' inside n := by
  induction fuel generalizing fuel' inside n with
  | zero => exact absurd h (depth_pos n).not_ge
  | succ fuel ih =>
    obtain ⟨fuel', rfl⟩ := Nat.exists_eq_add_one.2 ((depth_pos n).trans_le h')
    have hpart : ∀ inside, ∀ m ∈ n.parts, valueFrom texts [] fuel inside m = valueFrom texts [] fuel' inside m := by
      intro inside m hm
      have := depth_lt_of_mem_parts hm
      exact ih (by omega) (by omega)
    have hitems : ∀ inside,
        n.items.map (valueFrom texts [] fuel inside) = n.items.map (valueFrom texts [] fuel' inside) :=
      fun inside => List.map_congr_left fun m hm => hpart inside m (by simp [parts, hm])
    have hentries : ∀ inside, ((n.flatEntries.toOption.getD []).mapIdx fun i (k, v) =>
        (keyText texts n i k, valueFrom texts [] fuel inside v)) = (n.flatEntries.toOption.getD []).mapIdx
          fun i (k, v) =>
        (keyText texts n i k, valueFrom texts [] fuel' inside v) := by
      intro inside
      rw [List.mapIdx_eq_mapIdx_iff]
      intro i hi
      have hmem := List.mem_map_of_mem (f := (·.2)) (List.getElem_mem hi)
      exact Prod.ext rfl (hpart inside _ (List.mem_append_left _ (List.mem_append_right _ hmem)))
    have hpairs : ∀ inside (place : Nat → Value → Value), (n.itemPairs.mapIdx fun i o =>
        place i (.tuple [valueFrom texts [] fuel inside o.1, valueFrom texts [] fuel inside o.2])) =
        n.itemPairs.mapIdx fun i o =>
          place i (.tuple [valueFrom texts [] fuel' inside o.1, valueFrom texts [] fuel' inside o.2]) := by
      intro inside place
      rw [List.mapIdx_eq_mapIdx_iff]
      intro i hi
      have hmem : ∀ m ∈ [n.itemPairs[i].1, n.itemPairs[i].2], m ∈ n.parts := fun m hm =>
        List.mem_append_right _ (List.mem_flatMap.2 ⟨_, List.getElem_mem hi, hm⟩)
      rw [hpart inside n.itemPairs[i].1 (hmem _ (by simp)), hpart inside n.itemPairs[i].2 (hmem _ (by simp))]
    rw [valueFrom, valueFrom]
    simp only [List.contains_nil, Bool.and_false, Bool.not_false, if_true, hitems, hentries]
    -- items of pairs are objects of their own inside an anchor
    rw [hpairs (inside || n.head.anchored || n.merges) fun i v =>
      if inside || n.head.anchored then .shared ⟨n.index, i + 1⟩ v else v]

/-- What a node becomes, where the texts of keys that are no scalars are known: `inside` says that an anchor stands
around it, or that it may be merged. -/
def built (texts : KeyTexts) (inside : Bool) (n : Node) : Value := valueFrom texts [] n.depth inside n

/-- The names that the keys of entries give. -/
def keyNames (texts : KeyTexts) (n : Node) (pairs : List (Node × Node)) : List String :=
  pairs.mapIdx fun i pair => keyText texts n i pair.1

/-- The dictionary of a mapping, each of its values being built. -/
def dictionary (texts : KeyTexts) (inside : Bool) (n : Node) (pairs : List (Node × Node)) : Mapping :=
  Dictionary.ofEntries ((keyNames texts n pairs).zip (pairs.map fun pair => pair.2.built texts inside))

theorem mapIdx_keyText {texts : KeyTexts} {n : Node} {pairs : List (Node × Node)} {f g : Node → Value}
    (h : ∀ pair ∈ pairs, f pair.2 = g pair.2) : (pairs.mapIdx fun i (k, v) => (keyText texts n i k, f v)) =
      (keyNames texts n pairs).zip (pairs.map fun pair => g pair.2) := by
  apply List.ext_getElem
  · simp [keyNames]
  · intro i hi hi'
    simp only [keyNames, List.getElem_mapIdx, List.getElem_zip, List.getElem_map]
    rw [h _ (List.getElem_mem _)]

/-- A mapping becomes a dictionary, or a set of its names. -/
theorem bare_built (texts : KeyTexts) (inside : Bool) {n : Node} {pairs : List (Node × Node)}
    (h : n.flatEntries = .ok pairs) :
    (n.head.tag = .map → (n.built texts inside).bare =
      .map (dictionary texts (inside || n.head.anchored || n.merges) n pairs)) ∧
    (n.head.tag = .set → (n.built texts inside).bare =
      .set ((keyNames texts n pairs).foldl (fun members name => insertMember name members) [])) := by
  obtain ⟨depth, hdepth⟩ := Nat.exists_eq_add_one.2 (depth_pos n)
  have hvalue : ∀ pair ∈ pairs, valueFrom texts [] depth (inside || n.head.anchored || n.merges) pair.2 =
      pair.2.built texts (inside || n.head.anchored || n.merges) := fun pair hpair =>
    valueFrom_congr (by have := (depth_lt_of_flatEntries h _ hpair).2; omega) le_rfl
  have hbare : ∀ {place : Place} {v : Value}, v.bare = v →
      (if (inside || n.head.anchored) = true then Value.shared place v else v).bare = v := by
    intro place v hv
    split
    · exact hv
    · exact hv
  rw [built, hdepth, valueFrom]
  simp only [List.contains_nil, Bool.and_false, Bool.not_false, if_true, h, Except.toOption, Option.getD_some]
  constructor
  · intro htag
    rw [htag]
    exact (hbare rfl).trans (congrArg (fun entries => Value.map (Dictionary.ofEntries entries)) (mapIdx_keyText hvalue))
  · intro htag
    rw [htag]
    exact hbare rfl

/-- A mapping that is keyed by text. Its pairs are those that its sources give, the ones that win standing behind, and
`names` are the names of their keys. -/
structure Keyed (n : Node) (pairs : List (Node × Node)) (sources : List Source) (names : List String)
    (build : Node → Value) (d : Mapping) : Prop where
  gives : List.Forall₂ (Gives n.entries) sources pairs
  complete : ∀ s pair, Gives n.entries s pair → s ∈ sources
  ordered : sources.Pairwise fun s t => t.Beats s
  length : names.length = pairs.length
  /-- A scalar key is named by its text. -/
  named : ∀ (i : Nat) (h : NodeHead) (text : String) (value : Node), pairs[i]? = some (Node.scalar h text, value) →
    names[i]? = some text
  /-- Scalar keys have the same entry exactly where their texts are equal. -/
  same : ∀ (i j : Nat) (h h' : NodeHead) (text text' : String) (value value' : Node),
    pairs[i]? = some (Node.scalar h text, value) → pairs[j]? = some (Node.scalar h' text', value') →
      (names[i]? = names[j]? ↔ text = text')
  /-- An entry stands where the first pair of its name stands among the first pairs of all names. -/
  keys : d.keys = Text.firstOccurrences names
  /-- It holds the value of the last pair of its name. -/
  last : ∀ (i : Nat) (name : String) (pair : Node × Node), names[i]? = some name → pairs[i]? = some pair →
    (∀ j, i < j → names[j]? ≠ some name) → d.get? name = some (build pair.2)
  /-- This is the pair whose source beats those of all others of the name. -/
  wins : ∀ name ∈ names, ∃ (i : Nat) (s : Source) (pair : Node × Node), names[i]? = some name ∧ sources[i]? = some s ∧
    pairs[i]? = some pair ∧ d.get? name = some (build pair.2) ∧
      ∀ (j : Nat) (t : Source), j ≠ i → names[j]? = some name → sources[j]? = some t → s.Beats t ∧ ¬ t.Beats s

theorem keyed_dictionary (texts : KeyTexts) (inside : Bool) {n : Node} {pairs : List (Node × Node)}
    (h : n.flatEntries = .ok pairs) :
    ∃ sources, n.Keyed pairs sources (keyNames texts n pairs) (built texts inside)
      (dictionary texts inside n pairs) := by
  obtain ⟨sources, hgives, hordered, hcomplete⟩ := ranked_flatEntries h
  have hlength : (keyNames texts n pairs).length = pairs.length := by simp [keyNames]
  have hnamed : ∀ (i : Nat) (h : NodeHead) (text : String) (value : Node), pairs[i]? = some (scalar h text, value) →
      (keyNames texts n pairs)[i]? = some text := by
    intro i _ text value hi
    rw [keyNames, List.getElem?_mapIdx, hi]
    rfl
  have hlast : ∀ (i : Nat) (name : String) (pair : Node × Node), (keyNames texts n pairs)[i]? = some name →
      pairs[i]? = some pair → (∀ j, i < j → (keyNames texts n pairs)[j]? ≠ some name) →
        (dictionary texts inside n pairs).get? name = some (pair.2.built texts inside) := by
    intro i name pair hname hpair hlater
    apply Dictionary.get?_ofEntries_of_last (i := i)
    · rw [List.getElem?_zip_eq_some, List.getElem?_map, hpair]
      exact ⟨hname, rfl⟩
    · rintro j e hj he rfl
      exact hlater j hj (List.getElem?_zip_eq_some.1 he).1
  refine ⟨sources, hgives, hcomplete, hordered, hlength, hnamed, ?_, ?_, hlast, ?_⟩
  · intro i j h h' text text' value value' hi hj
    rw [hnamed i h text value hi, hnamed j h' text' value' hj, Option.some.injEq]
  · rw [dictionary, Dictionary.keys_ofEntries, List.map_fst_zip (by simp [hlength])]
  · intro name hname
    obtain ⟨i, hi, hlater⟩ := Dictionary.exists_last_of_mem hname
    have hlt := (List.getElem?_eq_some_iff.1 hi).1
    have hlt' : i < sources.length := by
      rw [hgives.length_eq, ← hlength]
      exact hlt
    have hpair : pairs[i]? = some pairs[i] := List.getElem?_eq_getElem (hlength ▸ hlt)
    refine ⟨i, sources[i], pairs[i], hi, List.getElem?_eq_getElem hlt', hpair, hlast i name _ hi hpair hlater, ?_⟩
    intro j t hj hname ht
    obtain ⟨hjlt, rfl⟩ := List.getElem?_eq_some_iff.1 ht
    have hbefore : j < i := lt_of_le_of_ne (not_lt.1 fun hlt => hlater j hlt hname) hj
    have hbeats := List.pairwise_iff_getElem.1 hordered j i hjlt hlt' hbefore
    exact ⟨hbeats, hbeats.asymm⟩

/-- The content of a node has been read, in some state of a document. -/
def IsRead (n : Node) : Prop := ∃ fuel deep p q, Progress.fill (fuel + 1) deep p n = .ok q

theorem IsRead.exists_flatEntries {n : Node} (h : n.IsRead) (htag : n.head.tag = .map ∨ n.head.tag = .set) :
    ∃ pairs, n.flatEntries = .ok pairs := by
  obtain ⟨fuel, deep, p, q, h⟩ := h
  rw [Progress.fill.eq_def] at h
  rcases htag with htag | htag
  all_goals
    simp only [htag] at h
    obtain ⟨pairs, hpairs, -⟩ := bind_eq_ok.1 h
    exact ⟨pairs, hpairs⟩

/-- The root of a document that has a value has been read if it is a collection: it waits, and is the first to
be read. -/
theorem isRead_of_toValue {root : Node} {v : Value} (h : root.toValue = .ok v) (hparts : root.hasParts = true) :
    root.IsRead := by
  obtain ⟨p, hp, h⟩ := bind_eq_ok.1 h
  obtain ⟨q, hq, -⟩ := bind_eq_ok.1 h
  have hwaiting : p.waiting = [root] := by
    rw [Progress.meet, hparts] at hp
    split at hp
    next => cases hp
    next =>
      have hknows : Progress.empty.knows root = false := by simp [Progress.knows, Progress.empty]
      rw [hknows] at hp
      cases hp
      unfold Progress.note
      split <;> rfl
  obtain ⟨depth, hdepth⟩ := Nat.exists_eq_add_one.2 (depth_pos root)
  rw [hdepth, Progress.levels, hwaiting] at hq
  obtain ⟨_, hfirst, -⟩ := bind_eq_ok.1 hq
  obtain ⟨_, hfill, -⟩ := bind_eq_ok.1 hfirst
  exact ⟨_, _, _, _, hfill⟩

/-- A collection is read when nothing in it is at fault or without a value. -/
theorem isRead_of_passes {n : Node} (hparts : n.hasParts = true) (h : ∀ m, n.Reads m → m.Passes) : n.IsRead := by
  have hempty : Progress.WaitsWithin n .empty := by simp [Progress.WaitsWithin, Progress.empty]
  have hreads : Progress.ReadsWith n (2 * n.depth + 1) := Progress.readsWith _
  have hends := hreads.fill false .empty n hempty .refl hparts
  cases hfill : Progress.fill (2 * n.depth + 1) false .empty n with
  | ok q => exact ⟨_, _, _, q, hfill⟩
  | error e =>
    cases hends.2 e hfill with
    | fault hm hfaulty => exact absurd hfaulty (h _ hm).1
    | value hm hnone => exact absurd hnone (h _ hm).2

section Names

variable {n : Node} {pairs : List (Node × Node)} {sources : List Source} {names : List String} {build : Node → Value}
  {d : Mapping} {i : Nat} {o : Node × Node} {text : String}

theorem Keyed.name_of_name? (h : n.Keyed pairs sources names build d) (ho : pairs[i]? = some o)
    (hname : o.1.name? = some text) : names[i]? = some text := by
  obtain ⟨key, value⟩ := o
  cases key with
  | scalar head t =>
    cases hname
    exact h.named i head text value ho
  | sequence _ _ | mapping _ _ => cases hname

/-- A scalar key holds the value of its pair if other scalars are the keys of all pairs behind it. -/
theorem Keyed.get?_of_name? (h : n.Keyed pairs sources names build d) (ho : pairs[i]? = some o)
    (hname : o.1.name? = some text)
    (hothers : ∀ j p, i < j → pairs[j]? = some p → ∃ other, p.1.name? = some other ∧ other ≠ text) :
    d.get? text = some (build o.2) := by
  refine h.last i text o (h.name_of_name? ho hname) ho fun j hj hsame => ?_
  have hlt : j < pairs.length := h.length ▸ (List.getElem?_eq_some_iff.1 hsame).1
  have hp : pairs[j]? = some pairs[j] := List.getElem?_eq_getElem hlt
  obtain ⟨other, hother, hne⟩ := hothers j _ hj hp
  exact hne (Option.some.inj ((h.name_of_name? hp hother).symm.trans hsame))

end Names

end NoteVault.Yaml.Node

namespace NoteVault.Yaml

open Node

/-- A document that has a value has been read, with all collections in it when its keys are simple ones. Every mapping
that has been read is keyed by text, and a set has the keys of such a mapping. -/
theorem mappings_keyed_by_text {header : String} {root : Node} {v : Value}
    (hroot : Node.ofString? header = .ok (some root)) (hv : read header = .ok v) :
    ∃ texts, v = root.built texts false ∧ (root.hasParts = true → root.IsRead) ∧
      (root.HasSimpleKeys → ∀ n, root.Reads n → n.hasParts = true → n.IsRead) ∧
      ∀ (n : Node) (inside : Bool), n.IsRead → n.head.tag = .map ∨ n.head.tag = .set →
        ∃ (pairs : List (Node × Node)) (sources : List Source) (names : List String) (d : Mapping),
          n.flatEntries = .ok pairs ∧
          n.Keyed pairs sources names (built texts (inside || n.head.anchored || n.merges)) d ∧
          (n.head.tag = .map → (n.built texts inside).bare = .map d) ∧
          (n.head.tag = .set → ∃ members, (n.built texts inside).bare = .set members ∧
            ∀ key, key ∈ members ↔ key ∈ d.keys) := by
  have hvalue : root.toValue = .ok v := read_of_root hroot ▸ hv
  obtain ⟨p, -, hv⟩ := bind_eq_ok.1 hvalue
  obtain ⟨q, -, hv⟩ := bind_eq_ok.1 hv
  refine ⟨q.keys, (Except.ok.inj hv).symm, isRead_of_toValue hvalue, fun hsimple n hn hparts => ?_,
    fun n inside hread htag => ?_⟩
  · exact isRead_of_passes hparts fun m hm =>
      passes_of_toValue (anchorsAgree_of_ofString? hroot) hsimple hvalue (hn.trans hm)
  · obtain ⟨pairs, hpairs⟩ := hread.exists_flatEntries htag
    obtain ⟨sources, hkeyed⟩ := keyed_dictionary q.keys (inside || n.head.anchored || n.merges) hpairs
    obtain ⟨hmap, hset⟩ := bare_built q.keys inside hpairs
    refine ⟨pairs, sources, _, _, hpairs, hkeyed, hmap, fun htag => ⟨_, hset htag, fun key => ?_⟩⟩
    rw [mem_foldl_insertMember, hkeyed.keys, Text.mem_firstOccurrences]
    simp

/-- Of two mappings in a list the first one wins, in the mapping whose merge key has the list; keys that are equal as
numbers stay two keys, in the mapping around it. -/
theorem mappings_keyed_by_text_merged : ∃ root n v,
    Node.ofString? "k:\n  <<:\n  - x: 1\n  - x: 2\n    y: 3\n  y: 4\n1: a\n1.0: b\n'1': c" = .ok (some root) ∧
    read "k:\n  <<:\n  - x: 1\n  - x: 2\n    y: 3\n  y: 4\n1: a\n1.0: b\n'1': c" = .ok v ∧
    v = .map [("k", .map [("x", .int 1), ("y", .int 4)]), ("1", .str "c"), ("1.0", .str "b")] ∧
    root.HasSimpleKeys ∧ root.IsRead ∧ root.head.tag = .map ∧ root.Reads n ∧ n.IsRead ∧ n.head.tag = .map ∧
    n.merges = true ∧ ∃ texts, v = root.built texts false ∧
      (∃ (pairs : List (Node × Node)) (sources : List Source) (names : List String) (d : Mapping),
        root.flatEntries = .ok pairs ∧
        root.Keyed pairs sources names (built texts (false || root.head.anchored || root.merges)) d ∧ v = .map d) ∧
      ∃ (pairs : List (Node × Node)) (sources : List Source) (names : List String),
        n.flatEntries = .ok pairs ∧
        n.Keyed pairs sources names (built texts (false || n.head.anchored || n.merges))
          [("x", .int 1), ("y", .int 4)] := by
  have hcomposed : (Node.ofString? "k:\n  <<:\n  - x: 1\n  - x: 2\n    y: 3\n  y: 4\n1: a\n1.0: b\n'1': c").toOption.any
      (fun composed => composed.any fun root => root.head.tag = .map && root.hasScalarKeys && !root.head.anchored &&
        !root.merges && root.flatEntries.toOption.any fun pairs =>
          pairs.map (fun o => (o.1.name?, o.2.head.tag, o.2.merges)) =
            [(some "k", .map, true), (some "1", .str, false), (some "1.0", .str, false), (some "1", .str, false)]) =
      true := by
    decide +kernel
  have hv : read "k:\n  <<:\n  - x: 1\n  - x: 2\n    y: 3\n  y: 4\n1: a\n1.0: b\n'1': c" =
      .ok (.map [("k", .map [("x", .int 1), ("y", .int 4)]), ("1", .str "c"), ("1.0", .str "b")]) := by decide +kernel
  obtain ⟨_ | root, hroot, hcomposed⟩ := exists_of_toOption_any hcomposed
  · cases hcomposed
  simp only [Option.any_some, Bool.and_eq_true, decide_eq_true_eq, Bool.not_eq_true'] at hcomposed
  obtain ⟨⟨⟨⟨htag, hscalar⟩, hanchored⟩, hmerges⟩, hflat⟩ := hcomposed
  obtain ⟨pairs, hpairs, hshape⟩ := exists_of_toOption_any hflat
  have hshape := of_decide_eq_true hshape
  have hsimple := hasSimpleKeys_of_hasScalarKeys hscalar
  obtain ⟨texts, hbuilt, hroot', hnested, hkeyed⟩ := mappings_keyed_by_text hroot hv
  have hread : root.IsRead := hroot' (by rw [hasParts, htag])
  obtain ⟨pairs', sources, names, d, hpairs', hkeys, hmap, -⟩ := hkeyed root false hread (.inl htag)
  cases hpairs.symm.trans hpairs'
  have hd : Value.map [("k", .map [("x", .int 1), ("y", .int 4)]), ("1", .str "c"), ("1.0", .str "b")] = .map d := by
    rw [← hmap htag, ← hbuilt]
    rfl
  -- the first entry is the only one with its name
  obtain ⟨o, rest, rfl, ho, hrest⟩ := List.map_eq_cons_iff.1 hshape
  obtain ⟨hname, hotag, homerges⟩ : o.1.name? = some "k" ∧ o.2.head.tag = .map ∧ o.2.merges = true := by simpa using ho
  have hothers : ∀ p ∈ rest, ∃ name, p.1.name? = some name ∧ name ≠ "k" := by
    intro p hp
    have hmem := List.mem_map_of_mem (f := fun o : Node × Node => (o.1.name?, o.2.head.tag, o.2.merges)) hp
    rw [hrest] at hmem
    simp only [List.mem_cons, Prod.mk.injEq, List.not_mem_nil, or_false] at hmem
    obtain ⟨h, -⟩ | ⟨h, -⟩ | ⟨h, -⟩ := hmem
    all_goals exact ⟨_, h, by decide⟩
  have hlast : d.get? "k" = some (o.2.built texts (false || root.head.anchored || root.merges)) := by
    refine hkeys.get?_of_name? (i := 0) rfl hname fun j p hj hp => ?_
    obtain ⟨j, rfl⟩ := Nat.exists_eq_add_one.2 hj
    exact hothers p (List.mem_of_getElem? hp)
  rw [hanchored, hmerges, ← Value.map.inj hd] at hlast
  have hvalue : o.2.built texts false = .map [("x", .int 1), ("y", .int 4)] := (Option.some.inj hlast).symm
  have hreads : root.Reads o.2 := .single (.value (.inl htag) hpairs List.mem_cons_self)
  have hnread : o.2.IsRead := hnested hsimple o.2 hreads (by rw [hasParts, hotag])
  obtain ⟨npairs, nsources, nnames, nd, hnpairs, hnkeys, hnmap, -⟩ := hkeyed o.2 false hnread (.inl hotag)
  have hnd : Value.map [("x", .int 1), ("y", .int 4)] = .map nd := by
    rw [← hnmap hotag, hvalue]
    rfl
  refine ⟨root, o.2, _, hroot, hv, rfl, hsimple, hread, htag, hreads, hnread, hotag, homerges, texts, hbuilt,
    ⟨_, sources, names, d, hpairs, hkeys, hd⟩, npairs, nsources, nnames, hnpairs, ?_⟩
  rwa [Value.map.inj hnd]

end NoteVault.Yaml
