import NoteVault.Proofs.Yaml.Node.Content
import NoteVault.Proofs.Yaml.Node.Value
import NoteVault.Proofs.Yaml.Scan.Document
import NoteVault.Proofs.Yaml.Scan.Tokens

/-!
The document that is read from the lines of a mapping: its root stands for the mapping.
-/
namespace NoteVault.Yaml

open Content (kinds itemKinds entryKinds)
open Node Reader

variable {repeated written : List Value}

theorem isSound_nulls {members : List String} (h : AreMembers members) :
    Content.EntriesAreSound (members.map fun k => (k, nullContent)) := by
  have hnull : nullContent.IsSound := by
    refine ⟨rfl, ?_⟩
    rw [show Form.styleFor false .null none "null".toList = .plain by decide]
    exact ⟨by decide, by decide⟩
  obtain ⟨-, hkeys⟩ := h
  induction members with
  | nil => trivial
  | cons k members ih =>
    exact ⟨hkeys k (by simp), hnull, ih fun l hl => hkeys l (List.mem_cons_of_mem _ hl)⟩

theorem isSound_withAnchor {c : Content} (h : c.IsSound) (n : Nat) : (c.withAnchor n).IsSound := by
  cases c <;> exact h

mutual

theorem isSound_ofValue (v : Value) {written : List Value} (h : ReadsBack v) :
    (Content.ofValue repeated written v).1.IsSound := by
  cases v with
  | null | bool _ | int _ | float _ | str _ | bytes _ | date _ | datetime _ =>
    rw [ofValue_simple (by rfl)]
    rw [readsBack_simple (by rfl)] at h
    obtain ⟨_, _, _, -, hsound, -⟩ := h
    exact hsound
  | tuple _ => exact absurd h id
  | list items => exact areSound_ofList items h
  | map entries => exact ⟨rfl, entriesAreSound_ofEntries entries h.2⟩
  | set members => exact ⟨rfl, isSound_nulls h⟩
  | shared place v =>
    obtain ⟨members, rfl, hmembers⟩ := h
    have hset : (Content.mapping none .set (members.map fun k => (k, nullContent))).IsSound :=
      ⟨rfl, isSound_nulls hmembers⟩
    rw [Content.ofValue]
    split
    · dsimp only
      split
      · trivial
      · exact isSound_withAnchor hset _
    · exact hset

theorem areSound_ofList (items : List Value) {written : List Value} (h : ItemsReadBack items) :
    Content.AreSound (Content.ofList repeated written items).1 := by
  cases items with
  | nil => trivial
  | cons v more => exact ⟨isSound_ofValue v h.1, areSound_ofList more h.2⟩

theorem entriesAreSound_ofEntries (entries : List (String × Value)) {written : List Value}
    (h : EntriesReadBack entries) :
    Content.EntriesAreSound (Content.ofEntries repeated written entries).1 := by
  cases entries with
  | nil => trivial
  | cons e more => exact ⟨h.1, isSound_ofValue e.2 h.2.1, entriesAreSound_ofEntries more h.2.2⟩

end

/-- The names of the anchors among tokens. -/
def anchorNames (ks : List TokenKind) : List String :=
  ks.filterMap fun
    | .anchor name => some name
    | _ => none

@[simp] theorem anchorNames_append (ks ls : List TokenKind) :
    anchorNames (ks ++ ls) = anchorNames ks ++ anchorNames ls :=
  List.filterMap_append

/-- The objects are different ones, and all of them occur several times. -/
structure AreNamed (repeated written : List Value) : Prop where
  nodup : written.Nodup
  within : ∀ o ∈ written, o ∈ repeated

/-- The anchors among tokens are those of the objects that have been written since. -/
structure Names (repeated written : List Value) (ks : List TokenKind) (written' : List Value) : Prop
    extends AreNamed repeated written' where
  names : written'.map (anchorOf repeated) = (anchorNames ks).reverse ++ written.map (anchorOf repeated)

theorem Names.none {ks : List TokenKind} (h : AreNamed repeated written) (hks : anchorNames ks = []) :
    Names repeated written ks written := ⟨h, by simp [hks]⟩

theorem Names.append {ks ls : List TokenKind} {v w : List Value} (h : Names repeated written ks v)
    (h' : Names repeated v ls w) : Names repeated written (ks ++ ls) w :=
  ⟨h'.toAreNamed, by rw [h'.names, h.names]; simp⟩

theorem Names.congr {ks ls : List TokenKind} {w : List Value} (h : Names repeated written ks w)
    (hnames : anchorNames ls = anchorNames ks) : Names repeated written ls w :=
  ⟨h.toAreNamed, by rw [h.names, hnames]⟩

theorem anchorNames_scalar (tag : Tag) (wish : Option Style) (text : List Char) :
    anchorNames (kinds (.scalar none tag wish text)) = [] := by
  rw [kinds, Content.scalarKinds, anchorNames_append, anchorNames_append]
  split <;> rfl

theorem anchorNames_sequence (contents : List Content) :
    anchorNames (kinds (.sequence none contents)) = anchorNames (itemKinds contents) := by
  rw [kinds]
  split
  next hempty => rw [List.isEmpty_iff.1 hempty]; rfl
  next => simp [anchorNames, Content.anchorKinds]

theorem anchorNames_mapping (anchor : Option Nat) (tag : Tag) (contents : List (String × Content)) :
    anchorNames (kinds (.mapping anchor tag contents)) =
      anchorNames (Content.anchorKinds anchor) ++ anchorNames (entryKinds contents) := by
  have htag : anchorNames (if tag = .map then [] else [Content.tagKind tag]) = [] := by split <;> rfl
  rw [kinds, anchorNames_append, anchorNames_append, htag, List.append_nil]
  split
  next hempty => rw [List.isEmpty_iff.1 hempty]; rfl
  next => simp [anchorNames]

theorem anchorNames_nulls (members : List String) :
    anchorNames (entryKinds (members.map fun k => (k, nullContent))) = [] := by
  induction members with
  | nil => rfl
  | cons k members ih =>
    rw [List.map_cons, entryKinds, kinds_null]
    exact ih

theorem names_object {place : Place} {members : List String} (hw : AreNamed repeated written) :
    Names repeated written (Content.ofValue repeated written (.shared place (.set members))).1.kinds
      (Content.ofValue repeated written (.shared place (.set members))).2 := by
  have hset : ∀ anchor, anchorNames (kinds (.mapping anchor .set (members.map fun k => (k, nullContent)))) =
      anchorNames (Content.anchorKinds anchor) := fun anchor => by
    rw [anchorNames_mapping, anchorNames_nulls, List.append_nil]
  rw [Content.ofValue]
  split
  next hcontains =>
    simp only [Bool.and_eq_true, List.contains_iff_mem] at hcontains
    dsimp only
    split
    · exact .none hw rfl
    next hnew =>
      refine ⟨⟨List.nodup_cons.2 ⟨by simpa using hnew, hw.nodup⟩, ?_⟩, ?_⟩
      · intro o ho
        obtain rfl | ho := List.mem_cons.1 ho
        · exact hcontains.1
        · exact hw.within o ho
      · exact congrArg (fun names : List String => names.reverse ++ written.map (anchorOf repeated))
          (hset (some (repeated.idxOf (.shared place (.set members)) + 1))).symm
  · exact .none hw (hset none)

mutual

theorem names_ofValue (v : Value) {written : List Value} (h : ReadsBack v) (hw : AreNamed repeated written) :
    Names repeated written (Content.ofValue repeated written v).1.kinds (Content.ofValue repeated written v).2 := by
  cases v with
  | null | bool _ | int _ | float _ | str _ | bytes _ | date _ | datetime _ =>
    rw [ofValue_simple (by rfl)]
    rw [readsBack_simple (by rfl)] at h
    obtain ⟨tag, wish, text, hcontent, -, -⟩ := h
    rw [hcontent]
    exact .none hw (anchorNames_scalar tag wish text)
  | tuple _ => exact absurd h id
  | list items =>
    exact (names_ofList items h hw).congr (anchorNames_sequence _)
  | map entries => exact (names_ofEntries entries h.2 hw).congr (anchorNames_mapping none .map _)
  | set members => exact .none hw ((anchorNames_mapping none .set _).trans (anchorNames_nulls members))
  | shared place v =>
    obtain ⟨members, rfl, -⟩ := h
    exact names_object hw

theorem names_ofList (items : List Value) {written : List Value} (h : ItemsReadBack items)
    (hw : AreNamed repeated written) :
    Names repeated written (itemKinds (Content.ofList repeated written items).1)
      (Content.ofList repeated written items).2 := by
  cases items with
  | nil => exact .none hw rfl
  | cons v more =>
    have hv := names_ofValue v h.1 hw
    exact (hv.append (names_ofList more h.2 hv.toAreNamed)).congr rfl

theorem names_ofEntries (entries : List (String × Value)) {written : List Value} (h : EntriesReadBack entries)
    (hw : AreNamed repeated written) :
    Names repeated written (entryKinds (Content.ofEntries repeated written entries).1)
      (Content.ofEntries repeated written entries).2 := by
  cases entries with
  | nil => exact .none hw rfl
  | cons e more => 
    have hv := names_ofValue e.2 h.2.1 hw
    exact (hv.append (names_ofEntries more h.2.2 hv.toAreNamed)).congr rfl

end

/-- The token of the anchor with a number. -/
def anchorToken? (tokens : List Token) (n : Nat) : Option Token :=
  tokens.find? (·.kind = .anchor (String.ofList (Content.anchorName n)))

/-- Where the anchor with a number begins. Numbers without an anchor get places behind all tokens. -/
def anchorPlace (tokens : List Token) (n : Nat) : Nat :=
  match anchorToken? tokens n with
  | some t => t.start.index
  | none => (tokens.map (·.start.index)).sum + 1 + n

section Places

variable {tokens : List Token} {t u : Token} {n : Nat}

theorem mem_of_anchorToken? (h : anchorToken? tokens n = some t) :
    t ∈ tokens ∧ t.kind = .anchor (String.ofList (Content.anchorName n)) :=
  ⟨List.mem_of_find?_eq_some h, by simpa using List.find?_some h⟩

theorem eq_of_anchor_eq (hnames : (anchorNames (tokens.map Token.kind)).Nodup) (ht : t ∈ tokens) (hu : u ∈ tokens)
    {name : String} (htk : t.kind = .anchor name) (huk : u.kind = .anchor name) : t = u := by
  rw [anchorNames, List.filterMap_map, List.Nodup, List.pairwise_filterMap] at hnames
  have hdistinct : tokens.Pairwise fun t u => ¬(t.kind = .anchor name ∧ u.kind = .anchor name) :=
    hnames.imp fun h hboth => h name (by simp [hboth.1]) name (by simp [hboth.2]) rfl
  have : Std.Symm fun t u : Token => ¬(t.kind = .anchor name ∧ u.kind = .anchor name) :=
    ⟨fun _ _ h hboth => h hboth.symm⟩
  exact by_contra fun hne => hdistinct.forall ht hu hne ⟨htk, huk⟩

theorem anchorPlace_of_mem (hnames : (anchorNames (tokens.map Token.kind)).Nodup) (ht : t ∈ tokens)
    (hn : t.kind = .anchor (String.ofList (Content.anchorName n))) : anchorPlace tokens n = t.start.index := by
  unfold anchorPlace
  cases hfind : anchorToken? tokens n with
  | none => exact absurd hn (by simpa using List.find?_eq_none.1 hfind t ht)
  | some u =>
    obtain ⟨hu, huk⟩ := mem_of_anchorToken? hfind
    dsimp only
    rw [eq_of_anchor_eq hnames hu ht huk hn]

theorem anchorPlace_le (h : anchorToken? tokens n = some t) : t.start.index ≤ (tokens.map (·.start.index)).sum :=
  List.single_le_sum (fun _ _ => Nat.zero_le _) _ (List.mem_map_of_mem (mem_of_anchorToken? h).1)

theorem anchorPlace_injective (hplaces : (propertyPlaces tokens).Nodup) : (anchorPlace tokens).Injective := by
  intro m n hmn
  unfold anchorPlace at hmn
  cases hm : anchorToken? tokens m with
  | none =>
    cases hn : anchorToken? tokens n with
    | none =>
      simp only [hm, hn] at hmn
      omega
    | some u =>
      have := anchorPlace_le hn
      simp only [hm, hn] at hmn
      omega
  | some t =>
    cases hn : anchorToken? tokens n with
    | none =>
      have := anchorPlace_le hm
      simp only [hm, hn] at hmn
      omega
    | some u =>
      simp only [hm, hn] at hmn
      obtain ⟨ht, htk⟩ := mem_of_anchorToken? hm
      obtain ⟨hu, huk⟩ := mem_of_anchorToken? hn
      have hsame : t = u := List.inj_on_of_nodup_map hplaces (List.mem_filter.2 ⟨ht, by rw [htk]; rfl⟩)
        (List.mem_filter.2 ⟨hu, by rw [huk]; rfl⟩) hmn
      rw [hsame, huk] at htk
      exact (anchorName_injective (String.ofList_injective (TokenKind.anchor.inj htk))).symm

end Places

theorem Reader.document_of_node {s u : Reader} {root : Node} (ks : List TokenKind) {ρ : Nat → Nat}
    (h : Ready ρ s (.blockMappingStart :: ks)) (hnode : node s.fuel .block s = .ok (root, u))
    (hu : Ready ρ u [.streamEnd]) : s.document = .ok (some root) := by
  obtain ⟨t, -, hpeek, ht⟩ := h.token
  obtain ⟨e, -, hpeeku, he⟩ := hu.token
  have hlength : u.tokens.length = 1 := by simpa using congrArg List.length hu.kinds
  have hfirst : s.firstDocument = .ok (some root, u) := by
    rw [firstDocument]
    simp only [hpeek, ht, hnode, bind, Except.bind, pure, Except.pure]
  have hend : u.documentStart = .ok (none, u) := by
    rw [documentStart, hlength, skipEnds]
    simp only [hpeeku, he, bind, Except.bind, pure, Except.pure]
  rw [document]
  simp only [hfirst, hpeeku, he, hend, bind, Except.bind, pure, Except.pure]

/-- No two anchors of a mapping that is written have one name. -/
theorem nodup_anchorNames_ofMapping {m : Mapping} (h : ReadsBack (.map m)) :
    (anchorNames (entryKinds (Content.ofMapping m))).Nodup := by
  have hnames := names_ofEntries m h.2
    (⟨.nil, by simp⟩ : AreNamed (Content.censusEntries ⟨[], []⟩ m).repeated [])
  have hanchors := hnames.names
  rw [List.map_nil] at hanchors
  rw [← List.nodup_reverse, ← List.append_nil (List.reverse _), Content.ofMapping, ← hanchors]
  exact List.Nodup.map_on (fun o ho p _ hop => eq_of_anchorOf_eq (hnames.within o ho) hop) hnames.nodup

/-- What is written for a mapping is read as a node that stands for it. -/
theorem exists_root {m : Mapping} (hne : m ≠ []) (h : ReadsBack (.map m)) :
    ∃ root, ∃ ρ : Nat → Nat, ρ.Injective ∧
      Node.ofString? (String.ofList (Content.writeAll (Content.ofMapping m) ++ ['\n'])) = .ok (some root) ∧
      Stands (Content.censusEntries ⟨[], []⟩ m).repeated ρ (.map m) root := by
  set repeated := (Content.censusEntries ⟨[], []⟩ m).repeated with hrepeated
  have hcontent : Content.ofMapping m = (Content.ofEntries repeated [] m).1 := rfl
  have hcontents : Content.ofMapping m ≠ [] := by
    cases m with
    | nil => exact absurd rfl hne
    | cons e more => simp [hcontent, Content.ofEntries]
  obtain ⟨tokens, htokens, hkinds⟩ := Content.tokens_writeAll hcontents (entriesAreSound_ofEntries m h.2)
  have hsame : anchorNames (tokens.map Token.kind) = anchorNames (entryKinds (Content.ofMapping m)) := by
    rw [hkinds]
    simp [anchorNames]
  have hnodup := hsame ▸ nodup_anchorNames_ofMapping h
  have hmapping : (Content.mapping none .map (Content.ofEntries repeated [] m).1).kinds ++ [.streamEnd] =
      .blockMappingStart :: entryKinds (Content.ofMapping m) ++ [.blockEnd, .streamEnd] := by
    rw [kinds, if_pos rfl, ← hcontent, if_neg (by simpa using hcontents)]
    simp [Content.anchorKinds]
  have hready : Ready (anchorPlace tokens) ⟨tokens, none, [], defaultHandles⟩
      ((Content.ofValue repeated [] (.map m)).1.kinds ++ [.streamEnd]) :=
    ⟨hkinds.trans hmapping.symm, rfl, fun t ht n hn => anchorPlace_of_mem hnodup ht hn⟩
  have hlength : tokens.length = (Content.ofValue repeated [] (.map m)).1.kinds.length + 1 := by
    simpa using congrArg List.length hready.kinds
  obtain ⟨root, u, hnode, hstands, hu, -⟩ := node_ofValue (.map m)
    (Reader.fuel ⟨tokens, none, [], defaultHandles⟩) .block h hready ⟨by simp, by simp, by simp⟩
    (by rw [Reader.fuel]; dsimp only; omega) (by simp)
  refine ⟨root, anchorPlace tokens, anchorPlace_injective ?_, ?_, hstands⟩
  · have hplaces := nodup_propertyPlaces (String.ofList (Content.writeAll (Content.ofMapping m) ++ ['\n']))
    rwa [htokens] at hplaces
  · rw [Node.ofString?, htokens]
    exact Reader.document_of_node ((entryKinds (Content.ofMapping m)).append [.blockEnd, .streamEnd])
      ⟨hkinds, rfl, hready.places⟩ hnode hu

/-- What is written for a mapping is read as the mapping, with its objects at the places of their anchors. -/
theorem read_writeAll {m : Mapping} (hne : m ≠ []) (h : ReadsBack (.map m)) :
    ∃ ρ : Nat → Nat, ρ.Injective ∧ read (String.ofList (Content.writeAll (Content.ofMapping m) ++ ['\n'])) =
      .ok (.map (placedEntries (Content.censusEntries ⟨[], []⟩ m).repeated ρ m)) := by
  obtain ⟨root, ρ, hinjective, hroot, hstands⟩ := exists_root hne h
  refine ⟨ρ, hinjective, ?_⟩
  rw [read, hroot]
  exact toValue_stands h hstands

end NoteVault.Yaml
