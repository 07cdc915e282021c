import NoteVault.Proofs.Yaml.Node.Reader
import NoteVault.Proofs.Yaml.Node.Stands

/-!
The reader on the tokens of a content: the nodes that it makes stand for the value for which the content is
written, and the anchors that it knows are those of the objects that have been written.
-/
namespace NoteVault.Yaml.Node.Reader

open Content (kinds itemKinds entryKinds keyKind tagKind anchorKinds)

variable {s u : Reader} {k : TokenKind} {ks rest : List TokenKind} {ρ : Nat → Nat} {fuel : Nat}
  {position : Position} {repeated written : List Value}

/-- The name of an object's anchor. -/
def anchorOf (repeated : List Value) (o : Value) : String :=
  String.ofList (Content.anchorName (repeated.idxOf o + 1))

/-- The anchors are those of the objects that have been written, with nodes that stand for them. -/
structure Knows (repeated : List Value) (ρ : Nat → Nat) (written : List Value) (anchors : List Anchor) : Prop where
  within : ∀ o ∈ written, o ∈ repeated
  known : ∀ o ∈ written, ∃ a, anchors.find? (·.name = anchorOf repeated o) = some a ∧ Stands repeated ρ o a.node
  fresh : ∀ o ∈ repeated, o ∉ written → anchors.find? (·.name = anchorOf repeated o) = none

/-- A token with which no node begins. -/
def isSign : TokenKind → Bool
  | .blockEntry | .blockEnd | .key | .value => true
  | _ => false

theorem exists_kinds (c : Content) : ∃ k ks, c.kinds = k :: ks ∧ isSign k = false := by
  cases c with
  | aliasOf n => exact ⟨_, _, rfl, rfl⟩
  | scalar anchor tag wish text =>
    cases anchor with
    | some n => exact ⟨_, _, rfl, rfl⟩
    | none =>
      rw [kinds, Content.scalarKinds]
      split <;> exact ⟨_, _, rfl, rfl⟩
  | sequence anchor items =>
    cases anchor with
    | some n => exact ⟨_, _, rfl, rfl⟩
    | none =>
      rw [kinds]
      split <;> exact ⟨_, _, rfl, rfl⟩
  | mapping anchor tag entries =>
    cases anchor with
    | some n => exact ⟨_, _, rfl, rfl⟩
    | none =>
      rw [kinds]
      split
      · split <;> exact ⟨_, _, rfl, rfl⟩
      · exact ⟨_, _, rfl, rfl⟩

/-- A scalar gets the tag for which it is written. -/
theorem node_written (tag : Tag) (style : Style) (text : String) (htag : tag.isStandard = true)
    (h : Ready ρ s ((if Form.showsTag style tag text.toList then [tagKind tag] else []) ++ .scalar text style :: ks)) :
    ∃ mark u, (∀ fuel position, node (fuel + 1) position s = .ok (scalar ⟨tag, mark, false, false⟩ text, u)) ∧
      Ready ρ u ks ∧ u.anchors = s.anchors := by
  rw [← tagKinds_givenTag] at h
  obtain ⟨p, read, u, t, f, ht, hp, hspecific, hsome, -, hready, hanchors⟩ :=
    front none _ _ _ (isStandard_of_mem_givenTag _ htag) h rfl
  refine ⟨f.mark, u.next, fun fuel position => ?_, hready.next, hanchors⟩
  rw [node_scalar f ht hp]
  have hsame : (specific read).getD (scalarTag read text style) = tag := by
    rw [hspecific, scalarTag, hspecific, hsome, givenTag]
    by_cases hshow : Form.showsTag style tag text.toList = true
    · rw [if_pos hshow]
      rfl
    · rw [if_neg hshow]
      rw [Form.showsTag, String.ofList_toList] at hshow
      by_cases hplain : style = .plain
      · rw [if_pos hplain, decide_eq_true_eq, not_not] at hshow
        simp [hplain, hshow]
      · rw [if_neg hplain, decide_eq_true_eq, not_not] at hshow
        simp [hplain, hshow]
  rw [hsame]

theorem node_key {key : String} (h : Ready ρ s (keyKind key :: ks)) :
    ∃ n u, (∀ fuel position, node (fuel + 1) position s = .ok (n, u)) ∧ IsKey key n ∧ Ready ρ u ks ∧
      u.anchors = s.anchors := by
  have hshow := (Form.scalar_str 0 (Content.isSimpleKey key.toList) (Content.wishOf key) key.toList).2
  obtain ⟨mark, u, hnode, hready, hanchors⟩ := node_written .str
    (Form.styleFor (Content.isSimpleKey key.toList) .str (Content.wishOf key) key.toList) key rfl
    (by rw [hshow]; exact h)
  exact ⟨_, u, hnode, ⟨mark, rfl⟩, hready, hanchors⟩

theorem blockPart_node {t : Token} (h : Ready ρ s (k :: ks)) (hk : isSign k = false) :
    blockPart (fuel + 1) t s = node fuel .afterKey s := by
  obtain ⟨u, -, hpeek, rfl⟩ := h.token
  rw [blockPart]
  simp only [hpeek, bind, Except.bind]
  split
  · exact absurd hk (by simp [*, isSign])
  · exact absurd hk (by simp [*, isSign])
  · exact absurd hk (by simp [*, isSign])
  · rfl

/-- An entry of a mapping: its key, then its value. -/
theorem blockEntries_entry {key : String} (h : Ready ρ s (.key :: keyKind key :: .value :: k :: ks))
    (hk : isSign k = false) :
    ∃ n u, IsKey key n ∧ Ready ρ u (k :: ks) ∧ u.anchors = s.anchors ∧
      ∀ {fuel start v w value entries}, node (fuel + 1) .afterKey u = .ok (value, v) →
        blockEntries (fuel + 2) start v = .ok (entries, w) →
        blockEntries (fuel + 3) start s = .ok ((n, value) :: entries, w) := by
  obtain ⟨t, -, hpeek, ht⟩ := h.token
  obtain ⟨n, u, hnode, hn, hu, hanchors⟩ := node_key h.next
  obtain ⟨v, -, hpeekv, hv⟩ := hu.token
  refine ⟨n, u.next, hn, hu.next, hanchors, fun {fuel start v' w value entries} hvalue hentries => ?_⟩
  rw [blockEntries]
  simp only [hpeek, ht, bind, Except.bind, pure, Except.pure, blockPart_node h.next rfl, hnode, hpeekv, hv,
    blockPart_node hu.next hk, hvalue, hentries]

theorem blockEntries_end {start : Mark} (h : Ready ρ s (.blockEnd :: ks)) :
    blockEntries (fuel + 1) start s = .ok ([], s.next) := by
  obtain ⟨t, -, hpeek, ht⟩ := h.token
  rw [blockEntries]
  simp only [hpeek, ht, bind, Except.bind, pure, Except.pure]

/-- An item of a sequence. -/
theorem blockItems_item {start : Mark} (h : Ready ρ s (.blockEntry :: k :: ks)) (hk : isSign k = false)
    {v w : Reader} {item : Node} {items : List Node} (hitem : node (fuel + 1) .block s.next = .ok (item, v))
    (hitems : blockItems (fuel + 1) start v = .ok (items, w)) :
    blockItems (fuel + 2) start s = .ok (item :: items, w) := by
  obtain ⟨t, -, hpeek, ht⟩ := h.token
  obtain ⟨u, -, hpeeku, rfl⟩ := h.next.token
  rw [blockItems]
  simp only [hpeek, ht, bind, Except.bind, pure, Except.pure, hpeeku]
  split
  · exact absurd hk (by simp [*, isSign])
  · exact absurd hk (by simp [*, isSign])
  · simp only [hitem, hitems]

theorem blockItems_end {start : Mark} (h : Ready ρ s (.blockEnd :: ks)) :
    blockItems (fuel + 1) start s = .ok ([], s.next) := by
  obtain ⟨t, -, hpeek, ht⟩ := h.token
  rw [blockItems]
  simp only [hpeek, ht, bind, Except.bind, pure, Except.pure]

/-- A sequence without an anchor. -/
theorem node_sequence (fuel : Nat) {contents : List Content} {Q : List Node → List Anchor → Prop}
    (hpos : position ≠ .flow)
    (h : Ready ρ s ((Content.sequence none contents).kinds ++ rest)) (hfuel : 0 < fuel)
    (hread : ∀ (start : Mark) {u : Reader}, Ready ρ u (itemKinds contents ++ .blockEnd :: rest) →
      u.anchors = s.anchors →
      ∃ items v, blockItems fuel start u = .ok (items, v) ∧ Ready ρ v rest ∧ Q items v.anchors)
    (hnone : contents = [] → Q [] s.anchors) :
    ∃ mark items u, node (fuel + 1) position s = .ok (sequence ⟨.seq, mark, false, false⟩ items, u) ∧
      Ready ρ u rest ∧ Q items u.anchors := by
  obtain ⟨fuel, rfl⟩ : ∃ m, fuel = m + 1 := ⟨fuel - 1, by omega⟩
  rw [kinds] at h
  by_cases hempty : contents.isEmpty
  · rw [if_pos hempty] at h
    obtain ⟨p, read, u, t, f, ht, hp, hspecific, -, -, hready, hanchors⟩ := front none none _ _
      (by simp) h rfl
    obtain ⟨e, -, hpeek, he⟩ := hready.next.token
    refine ⟨f.mark, [], u.next.next, ?_, hready.next.next, hanchors ▸ hnone (List.isEmpty_iff.1 hempty)⟩
    rw [node_noItems f ht hp hpeek he, hspecific]
    rfl
  · rw [if_neg hempty] at h
    obtain ⟨p, read, u, t, f, ht, hp, hspecific, -, -, hready, hanchors⟩ := front none none
      .blockSequenceStart (itemKinds contents ++ .blockEnd :: rest) (by simp)
      (by simpa [anchorKinds, tagKinds] using h) rfl
    obtain ⟨items, v, hitems, hv, hQ⟩ := hread t.start hready.next hanchors
    refine ⟨f.mark, items, v, ?_, hv, hQ⟩
    rw [node_items f ht hp hpos hitems, hspecific]
    rfl

/-- A mapping, whose entries are read while its anchor names the whole of it. -/
theorem node_mapping (fuel : Nat) {anchor : Option Nat} {tag : Tag} {contents : List (String × Content)}
    {Q : List (Node × Node) → List Anchor → Prop} (htag : tag.isStandard = true) (hpos : position ≠ .flow)
    (h : Ready ρ s ((Content.mapping anchor tag contents).kinds ++ rest)) (hfuel : 0 < fuel)
    (hfresh : ∀ n ∈ anchor, s.anchors.find? (·.name = String.ofList (Content.anchorName n)) = none)
    (hread : ∀ (whole : Node) (start : Mark) {u : Reader}, Ready ρ u (entryKinds contents ++ .blockEnd :: rest) →
      u.anchors = (s.setAnchor whole (anchor.map (String.ofList <| Content.anchorName ·))).anchors →
      ∃ entries v, blockEntries fuel start u = .ok (entries, v) ∧ Ready ρ v rest ∧ Q entries v.anchors)
    (hnone : ∀ whole, contents = [] →
      Q [] (s.setAnchor whole (anchor.map (String.ofList <| Content.anchorName ·))).anchors) :
    ∃ mark entries u v, node (fuel + 1) position s = .ok (mapping ⟨tag, mark, anchor.isSome, false⟩ entries, u) ∧
      u = v.setAnchor (mapping ⟨tag, mark, anchor.isSome, false⟩ entries)
        (anchor.map (String.ofList <| Content.anchorName ·)) ∧
      (∀ n ∈ anchor, mark.index = ρ n) ∧ Ready ρ v rest ∧ Q entries v.anchors := by
  have hwritten : (if tag = .map then [] else [tagKind tag]) = tagKinds (givenTag (tag ≠ .map) tag) := by
    rw [tagKinds_givenTag]
    by_cases hmap : tag = .map <;> simp [hmap]
  have htagged : (givenTag (tag ≠ .map) tag).getD .map = tag := by
    by_cases hmap : tag = .map <;> simp [givenTag, hmap]
  have hstandard := isStandard_of_mem_givenTag (tag ≠ .map) htag
  have hfresh' : ∀ {p : Properties} {u : Reader}, p.anchor = anchor.map (String.ofList <| Content.anchorName ·) →
      u.anchors = s.anchors → ∀ name, p.anchor = some name → u.anchors.find? (·.name = name) = none := by
    intro p u hp hu name hname
    obtain ⟨n, hn, rfl⟩ := Option.map_eq_some_iff.1 (hp ▸ hname)
    rw [hu]
    exact hfresh n hn
  obtain ⟨fuel, rfl⟩ : ∃ m, fuel = m + 1 := ⟨fuel - 1, by omega⟩
  rw [kinds, hwritten] at h
  by_cases hempty : contents.isEmpty
  · rw [if_pos hempty, List.append_assoc] at h
    obtain ⟨p, read, u, t, f, ht, hp, hspecific, hsome, hplace, hready, hanchors⟩ := front _ _ _ _ hstandard h rfl
    obtain ⟨e, -, hpeek, he⟩ := hready.next.token
    refine ⟨f.mark, [], _, (u.setAnchor f.whole p.anchor).next.next, ?_, rfl, hplace,
      (hready.setAnchor _ _).next.next, ?_⟩
    · rw [node_noEntries f ht (hfresh' hp hanchors) hpeek he, hspecific, htagged, hp]
      simp
    · rw [hp, anchors_next, anchors_next, anchors_setAnchor hanchors]
      exact hnone f.whole (List.isEmpty_iff.1 hempty)
  · rw [if_neg hempty, List.append_assoc] at h
    obtain ⟨p, read, u, t, f, ht, hp, hspecific, hsome, hplace, hready, hanchors⟩ :=
      front _ _ .blockMappingStart (entryKinds contents ++ .blockEnd :: rest) hstandard (by simpa using h) rfl
    obtain ⟨entries, v, hentries, hv, hQ⟩ := hread f.whole t.start (hready.setAnchor f.whole p.anchor).next
      (by rw [hp, anchors_next, anchors_setAnchor hanchors])
    refine ⟨f.mark, entries, _, v, ?_, rfl, hplace, hv, hQ⟩
    rw [node_entries f ht hpos (hfresh' hp hanchors) hentries, hspecific, htagged, hp]
    simp

/-- What is written for null. -/
abbrev nullContent : Content := .scalar none .null none "null".toList

theorem kinds_null : nullContent.kinds = [.scalar "null" .plain] := by decide

theorem blockEntries_members {members : List String} (fuel : Nat) (start : Mark)
    (h : Ready ρ s (entryKinds (members.map fun k => (k, nullContent)) ++ .blockEnd :: rest))
    (hfuel : 2 * (entryKinds (members.map fun k => (k, nullContent))).length < fuel) :
    ∃ entries u, blockEntries fuel start s = .ok (entries, u) ∧ Ready ρ u rest ∧ MembersStand members entries ∧
      u.anchors = s.anchors := by
  induction members generalizing s fuel with
  | nil =>
    obtain ⟨fuel, rfl⟩ : ∃ m, fuel = m + 1 := ⟨fuel - 1, by omega⟩
    exact ⟨[], s.next, blockEntries_end h, Ready.next h, .nil, rfl⟩
  | cons key members ih =>
    simp only [List.map_cons, entryKinds, kinds_null, List.cons_append, List.nil_append, List.length_cons] at h hfuel
    obtain ⟨fuel, rfl⟩ : ∃ m, fuel = m + 3 := ⟨fuel - 3, by omega⟩
    obtain ⟨n, u, hn, hu, hanchors, hentry⟩ := blockEntries_entry h rfl
    obtain ⟨mark, v, hnode, hv, hanchors'⟩ := node_written .null .plain "null" rfl (by
      rw [show Form.showsTag .plain .null "null".toList = false by decide]
      exact hu)
    obtain ⟨entries, w, hentries, hw, hstand, hanchors''⟩ := ih (fuel + 2) hv (by omega)
    exact ⟨_, w, hentry (hnode _ _) hentries, hw, .cons ⟨hn, mark, rfl⟩ hstand, by rw [hanchors'', hanchors', hanchors]⟩

theorem length_itemKinds_lt (anchor : Option Nat) (contents : List Content) :
    (itemKinds contents).length + 1 < (Content.sequence anchor contents).kinds.length := by
  have hbrackets : (itemKinds contents).length + 1 <
      (if contents.isEmpty then [TokenKind.flowSequenceStart, .flowSequenceEnd]
        else .blockSequenceStart :: itemKinds contents ++ [.blockEnd]).length := by
    split
    next hempty => simp [List.isEmpty_iff.1 hempty, itemKinds]
    next => simp
  rw [kinds, List.length_append]
  omega

theorem length_entryKinds_lt (anchor : Option Nat) (tag : Tag) (contents : List (String × Content)) :
    (entryKinds contents).length + 1 < (Content.mapping anchor tag contents).kinds.length := by
  have hbrackets : (entryKinds contents).length + 1 <
      (if contents.isEmpty then [TokenKind.flowMappingStart, .flowMappingEnd]
        else .blockMappingStart :: entryKinds contents ++ [.blockEnd]).length := by
    split
    next hempty => simp [List.isEmpty_iff.1 hempty, entryKinds]
    next => simp
  rw [kinds, List.length_append]
  omega

/-- A set, with an anchor if it occurs several times. -/
theorem node_members (anchor : Option Nat) {members : List String} (hpos : position ≠ .flow)
    (h : Ready ρ s ((Content.mapping anchor .set (members.map fun k => (k, nullContent))).kinds ++ rest))
    (hfuel : 2 * (Content.mapping anchor .set (members.map fun k => (k, nullContent))).kinds.length ≤ fuel)
    (hfresh : ∀ n ∈ anchor, s.anchors.find? (·.name = String.ofList (Content.anchorName n)) = none) :
    ∃ mark entries u, node fuel position s = .ok (mapping ⟨.set, mark, anchor.isSome, false⟩ entries, u) ∧
      MembersStand members entries ∧ (∀ n ∈ anchor, mark.index = ρ n) ∧ Ready ρ u rest ∧
      (anchor = none → u.anchors = s.anchors) ∧
      ∀ n ∈ anchor, ∀ name, u.anchors.find? (·.name = name) =
        if String.ofList (Content.anchorName n) = name then
          some ⟨name, mapping ⟨.set, mark, anchor.isSome, false⟩ entries⟩
        else s.anchors.find? (·.name = name) := by
  have hlt := length_entryKinds_lt anchor .set (members.map fun k => (k, nullContent))
  obtain ⟨fuel, rfl⟩ : ∃ m, fuel = m + 1 := ⟨fuel - 1, by omega⟩
  obtain ⟨mark, entries, u, v, hnode, rfl, hplace, hv, hmembers, whole, hanchors⟩ :=
    node_mapping fuel (Q := fun entries anchors => MembersStand members entries ∧
      ∃ whole, anchors = (s.setAnchor whole (anchor.map (String.ofList <| Content.anchorName ·))).anchors)
      rfl hpos h (by omega) hfresh
      (fun whole start u hu hanchors => by
        obtain ⟨entries, v, hentries, hv, hmembers, hsame⟩ := blockEntries_members fuel start hu (by omega)
        exact ⟨entries, v, hentries, hv, hmembers, whole, hsame.trans hanchors⟩)
      (fun whole hempty => by
        rw [List.map_eq_nil_iff.1 hempty]
        exact ⟨.nil, whole, rfl⟩)
  refine ⟨mark, entries, _, hnode, hmembers, hplace, hv.setAnchor _ _, ?_, ?_⟩
  · rintro rfl
    exact hanchors
  · rintro n rfl name
    rw [Option.map_some, find_setAnchor, hanchors, Option.map_some, find_setAnchor]
    split <;> rfl

theorem node_simple {v : Value} (hsimple : isSimple v = true) (hv : ReadsBack v)
    (h : Ready ρ s ((Content.ofValue repeated written v).1.kinds ++ rest)) (hknows : Knows repeated ρ written s.anchors)
    (hfuel : 2 * (Content.ofValue repeated written v).1.kinds.length ≤ fuel) :
    ∃ n u, node fuel position s = .ok (n, u) ∧ Stands repeated ρ v n ∧ Ready ρ u rest ∧
      Knows repeated ρ (Content.ofValue repeated written v).2 u.anchors := by
  rw [readsBack_simple hsimple] at hv
  obtain ⟨tag, wish, text, hcontent, hsound, hvalue⟩ := hv
  rw [hcontent, Content.IsSound] at hsound
  rw [ofValue_simple hsimple, hcontent] at h hfuel ⊢
  obtain ⟨k, ks, hk, -⟩ := exists_kinds (.scalar none tag wish text)
  have hlength : 0 < (Content.scalar none tag wish text).kinds.length := by rw [hk]; simp
  obtain ⟨fuel, rfl⟩ : ∃ m, fuel = m + 1 := ⟨fuel - 1, by omega⟩
  simp only [kinds, anchorKinds, Content.scalarKinds, List.nil_append, List.append_assoc] at h
  obtain ⟨mark, u, hnode, hu, hanchors⟩ := node_written tag (Form.styleFor false tag wish text)
    (String.ofList text) hsound.1 (by rw [String.toList_ofList]; exact h)
  refine ⟨_, u, hnode _ _, ?_, hu, hanchors ▸ hknows⟩
  rw [stands_simple hsimple]
  exact ⟨tag, mark, _, rfl, hvalue mark⟩

theorem anchorName_injective : Function.Injective Content.anchorName := by
  have hvalue : ∀ n, Text.valueOf 10 (fun c => c.toNat - 48) ((Content.anchorName n).drop 2) = n := by
    intro n
    rw [Content.anchorName, show "id".toList = ['i', 'd'] from rfl, List.append_assoc, List.cons_append,
      List.cons_append, List.nil_append, List.drop_succ_cons, List.drop_succ_cons, List.drop_zero,
        Text.valueOf_replicate_zero _ (by decide)]
    exact Text.valueOf_toDigits (by decide) (by decide) n
  intro m n h
  rw [← hvalue m, h, hvalue n]

theorem eq_of_anchorOf_eq {o p : Value} (ho : o ∈ repeated) (h : anchorOf repeated o = anchorOf repeated p) :
    o = p := by
  have hindex := anchorName_injective (String.ofList_injective h)
  exact List.idxOf_inj ho |>.1 (by omega)

/-- An object is read as an alias if it has been written before, else its anchor becomes known. -/
theorem node_object {place : Place} {members : List String} (hpos : position ≠ .flow)
    (h : Ready ρ s ((Content.ofValue repeated written (.shared place (.set members))).1.kinds ++ rest))
    (hknows : Knows repeated ρ written s.anchors)
    (hfuel : 2 * (Content.ofValue repeated written (.shared place (.set members))).1.kinds.length ≤ fuel) :
    ∃ n u, node fuel position s = .ok (n, u) ∧ Stands repeated ρ (.shared place (.set members)) n ∧ Ready ρ u rest ∧
      Knows repeated ρ (Content.ofValue repeated written (.shared place (.set members))).2 u.anchors := by
  by_cases hrep : .shared place (.set members) ∈ repeated
  · have hcontains :
        (repeated.contains (.shared place (.set members)) && !Content.isUnnamed (.set members)) = true := by
      simpa [Content.isUnnamed] using hrep
    simp only [Content.ofValue, hcontains, if_true] at h hfuel ⊢
    by_cases hwritten : .shared place (.set members) ∈ written
    · rw [if_pos (by simpa using hwritten)] at h hfuel ⊢
      obtain ⟨a, hfind, hstands⟩ := hknows.known _ hwritten
      obtain ⟨t, -, hpeek, ht⟩ := Ready.token (k := .aliasName _) h
      obtain ⟨fuel, rfl⟩ : ∃ m, fuel = m + 1 := ⟨fuel - 1, by simp [kinds] at hfuel; omega⟩
      exact ⟨a.node, s.next, node_alias hpeek ht hfind, hstands, Ready.next h, hknows⟩
    · rw [if_neg (by simpa using hwritten)] at h hfuel ⊢
      obtain ⟨mark, entries, u, hnode, hmembers, hplace, hu, -, hanchors⟩ :=
        node_members (some (repeated.idxOf (.shared place (.set members)) + 1)) hpos h hfuel
          (by rintro n ⟨⟩; exact hknows.fresh _ hrep hwritten)
      have hstands : Stands repeated ρ (.shared place (.set members)) (mapping ⟨.set, mark, true, false⟩ entries) := by
        refine ⟨members, mark, entries, rfl, ?_, hmembers, fun _ => hplace _ rfl⟩
        rw [show repeated.contains (.shared place (.set members)) = true by simpa using hrep]
      refine ⟨_, u, hnode, hstands, hu, ?_, ?_, ?_⟩
      · intro o ho
        obtain rfl | ho := List.mem_cons.1 ho
        · exact hrep
        · exact hknows.within o ho
      · intro o ho
        rw [hanchors _ rfl]
        split
        next hsame =>
          obtain rfl := eq_of_anchorOf_eq hrep hsame
          exact ⟨_, rfl, hstands⟩
        next hother =>
          obtain rfl | ho := List.mem_cons.1 ho
          · exact absurd rfl hother
          · exact hknows.known o ho
      · intro o ho hnew
        rw [hanchors _ rfl]
        refine (if_neg fun hsame => hnew (List.mem_cons.2 (.inl (eq_of_anchorOf_eq hrep hsame).symm))).trans ?_
        exact hknows.fresh o ho fun hmem => hnew (List.mem_cons_of_mem _ hmem)
  · have hcontains :
        (repeated.contains (.shared place (.set members)) && !Content.isUnnamed (.set members)) = false := by
      simpa [Content.isUnnamed] using hrep
    simp only [Content.ofValue, hcontains, Bool.false_eq_true, if_false] at h hfuel ⊢
    obtain ⟨mark, entries, u, hnode, hmembers, -, hu, hanchors, -⟩ := node_members none hpos h hfuel (by simp)
    refine ⟨_, u, hnode, ⟨members, mark, entries, rfl, ?_, hmembers, fun hmem => absurd hmem hrep⟩, hu,
      hanchors rfl ▸ hknows⟩
    rw [show repeated.contains (.shared place (.set members)) = false by simpa using hrep]
    rfl

mutual

/-- The node that is read for a value stands for it. -/
theorem node_ofValue (v : Value) (fuel : Nat) (position : Position) {s : Reader} {rest : List TokenKind}
    {written : List Value} (hv : ReadsBack v) (h : Ready ρ s ((Content.ofValue repeated written v).1.kinds ++ rest))
    (hknows : Knows repeated ρ written s.anchors)
    (hfuel : 2 * (Content.ofValue repeated written v).1.kinds.length ≤ fuel) (hpos : position ≠ .flow) :
    ∃ n u, node fuel position s = .ok (n, u) ∧ Stands repeated ρ v n ∧ Ready ρ u rest ∧
      Knows repeated ρ (Content.ofValue repeated written v).2 u.anchors := by
  cases v with
  | null | bool _ | int _ | float _ | str _ | bytes _ | date _ | datetime _ =>
    exact node_simple (by rfl) hv h hknows hfuel
  | tuple _ => exact absurd hv id
  | list items =>
    simp only [Content.ofValue] at h hfuel ⊢
    have hlt := length_itemKinds_lt none (Content.ofList repeated written items).1
    obtain ⟨fuel, rfl⟩ : ∃ m, fuel = m + 1 := ⟨fuel - 1, by omega⟩
    obtain ⟨mark, nodes, u, hnode, hu, hstand, hknowsu⟩ :=
      node_sequence fuel (Q := fun nodes anchors => ItemsStand repeated ρ items nodes ∧
        Knows repeated ρ (Content.ofList repeated written items).2 anchors) hpos h (by omega)
        (fun start u hu hanchors => by
          obtain ⟨nodes, w, hnodes, hstand, hw, hknowsw⟩ := blockItems_ofList items fuel start
            hv hu (hanchors ▸ hknows) (by omega)
          exact ⟨nodes, w, hnodes, hw, hstand, hknowsw⟩)
        (fun hempty => by
          cases items with
          | nil => exact ⟨rfl, hknows⟩
          | cons v more => exact absurd hempty (by simp [Content.ofList]))
    exact ⟨_, u, hnode, ⟨mark, nodes, rfl, hstand⟩, hu, hknowsu⟩
  | map entries =>
    have hlt := length_entryKinds_lt none .map (Content.ofEntries repeated written entries).1
    simp only [Content.ofValue] at h hfuel ⊢
    obtain ⟨fuel, rfl⟩ : ∃ m, fuel = m + 1 := ⟨fuel - 1, by omega⟩
    obtain ⟨mark, nodes, u, w, hnode, heq, -, hw, hstand, hknowsw⟩ :=
      node_mapping fuel (Q := fun nodes anchors => EntriesStand repeated ρ entries nodes ∧
        Knows repeated ρ (Content.ofEntries repeated written entries).2 anchors) rfl hpos h (by omega) (by simp)
        (fun _ start u hu hanchors => by
          obtain ⟨nodes, w, hnodes, hstand, hw, hknowsw⟩ := blockEntries_ofEntries entries fuel start
            hv.2 hu (hanchors ▸ hknows) (by omega)
          exact ⟨nodes, w, hnodes, hw, hstand, hknowsw⟩)
        (fun _ hempty => by
          cases entries with
          | nil => exact ⟨rfl, hknows⟩
          | cons e more => exact absurd hempty (by simp [Content.ofEntries]))
    obtain rfl : u = w := heq
    exact ⟨_, u, hnode, ⟨mark, nodes, rfl, hstand⟩, hw, hknowsw⟩
  | set members =>
    obtain ⟨mark, entries, u, hnode, hmembers, -, hu, hanchors, -⟩ := node_members none hpos h hfuel (by simp)
    exact ⟨_, u, hnode, ⟨mark, entries, rfl, hmembers⟩, hu, hanchors rfl ▸ hknows⟩
  | shared place v =>
    obtain ⟨members, rfl, -⟩ := hv
    exact node_object hpos h hknows hfuel

theorem blockItems_ofList (items : List Value) (fuel : Nat) (start : Mark) {s : Reader} {rest : List TokenKind}
    {written : List Value} (hitems : ItemsReadBack items)
    (h : Ready ρ s (itemKinds (Content.ofList repeated written items).1 ++ .blockEnd :: rest))
    (hknows : Knows repeated ρ written s.anchors)
    (hfuel : 2 * (itemKinds (Content.ofList repeated written items).1).length < fuel) :
    ∃ nodes u, blockItems fuel start s = .ok (nodes, u) ∧ ItemsStand repeated ρ items nodes ∧ Ready ρ u rest ∧
      Knows repeated ρ (Content.ofList repeated written items).2 u.anchors := by
  cases items with
  | nil =>
    obtain ⟨fuel, rfl⟩ : ∃ m, fuel = m + 1 := ⟨fuel - 1, by omega⟩
    exact ⟨[], s.next, blockItems_end h, rfl, Ready.next h, hknows⟩
  | cons v more =>
    obtain ⟨k, ks, hk, hsign⟩ := exists_kinds (Content.ofValue repeated written v).1
    have hlength : 0 < (Content.ofValue repeated written v).1.kinds.length := by rw [hk]; simp
    simp only [Content.ofList, itemKinds, List.length_append, List.length_cons] at hfuel
    obtain ⟨fuel, rfl⟩ : ∃ m, fuel = m + 2 := ⟨fuel - 2, by omega⟩
    have hrest : Ready ρ s.next ((Content.ofValue repeated written v).1.kinds ++
        (itemKinds (Content.ofList repeated (Content.ofValue repeated written v).2 more).1 ++ .blockEnd :: rest)) := by
      simpa [Content.ofList, itemKinds] using h.next
    obtain ⟨item, u, hitem, hstands, hu, hknowsu⟩ := node_ofValue v (fuel + 1) .block
      hitems.1 hrest hknows (by omega) (by simp)
    obtain ⟨nodes, w, hnodes, hstand, hw, hknowsw⟩ := blockItems_ofList more (fuel + 1) start
      hitems.2 hu hknowsu (by omega)
    exact ⟨_, w, blockItems_item (by simpa [Content.ofList, itemKinds, hk] using h) hsign hitem hnodes,
      ⟨_, _, rfl, hstands, hstand⟩, hw, hknowsw⟩

theorem blockEntries_ofEntries (entries : List (String × Value)) (fuel : Nat) (start : Mark) {s : Reader}
    {rest : List TokenKind} {written : List Value} (hentries : EntriesReadBack entries)
    (h : Ready ρ s (entryKinds (Content.ofEntries repeated written entries).1 ++ .blockEnd :: rest))
    (hknows : Knows repeated ρ written s.anchors)
    (hfuel : 2 * (entryKinds (Content.ofEntries repeated written entries).1).length < fuel) :
    ∃ nodes u, blockEntries fuel start s = .ok (nodes, u) ∧ EntriesStand repeated ρ entries nodes ∧ Ready ρ u rest ∧
      Knows repeated ρ (Content.ofEntries repeated written entries).2 u.anchors := by
  cases entries with
  | nil =>
    obtain ⟨fuel, rfl⟩ : ∃ m, fuel = m + 1 := ⟨fuel - 1, by omega⟩
    exact ⟨[], s.next, blockEntries_end h, rfl, Ready.next h, hknows⟩
  | cons e more =>
    obtain ⟨key, v⟩ := e
    obtain ⟨k, ks, hk, hsign⟩ := exists_kinds (Content.ofValue repeated written v).1
    have hlength : 0 < (Content.ofValue repeated written v).1.kinds.length := by rw [hk]; simp
    simp only [Content.ofEntries, entryKinds, List.length_append, List.length_cons] at hfuel
    obtain ⟨fuel, rfl⟩ : ∃ m, fuel = m + 3 := ⟨fuel - 3, by omega⟩
    have hentry : Ready ρ s (.key :: keyKind key :: .value :: k ::
        (ks ++ (entryKinds (Content.ofEntries repeated (Content.ofValue repeated written v).2 more).1 ++ .blockEnd ::
          rest))) := by
      simpa [Content.ofEntries, entryKinds, hk] using h
    obtain ⟨n, u, hn, hu, hanchors, hentry⟩ := blockEntries_entry hentry hsign
    obtain ⟨value, w, hvalue, hstands, hw, hknowsw⟩ := node_ofValue v (fuel + 1) .afterKey
      hentries.2.1 (by rw [hk]; exact hu) (hanchors ▸ hknows) (by omega) (by simp)
    obtain ⟨nodes, x, hnodes, hstand, hx, hknowsx⟩ := blockEntries_ofEntries more (fuel + 2) start
      hentries.2.2 hw hknowsw (by omega)
    exact ⟨_, x, hentry hvalue hnodes, ⟨_, _, _, rfl, hn, hstands, hstand⟩, hx, hknowsx⟩

end

end NoteVault.Yaml.Node.Reader
