import NoteVault.Graph.Search
import NoteVault.Proofs.Dictionary
import NoteVault.Proofs.Failure
import NoteVault.Proofs.Text.Case
import NoteVault.Proofs.Text.Joined
import NoteVault.Schema.Standard

/-!
What a search finds: the notes of a type with a text that holds the query when both are put into lower case, in the
order of the index. A note that holds the query itself is missed only for a capital sigma whose form depends on the
letters around the query.
-/
namespace NoteVault

theorem Text.occursIn_iff {part s : List Char} : Text.occursIn part s = true ↔ part <:+: s := by
  induction s with
  | nil => simp [Text.occursIn]
  | cons c s ih => rw [Text.occursIn, Bool.or_eq_true, List.isPrefixOf_iff_prefix, ih, List.infix_cons_iff]

namespace IndexedNote

/-- The note is of the type that is asked for, if one is. -/
def IsOfType (n : IndexedNote) (type : Option String) : Prop := type = none ∨ n.type = type

/-- The texts of a note that a search looks at, its tags as one text. -/
inductive HasText (n : IndexedNote) : String → Prop
  | id {s} (h : n.id = some s) : HasText n s
  | title {s} (h : n.title = some s) : HasText n s
  | type {s} (h : n.type = some s) : HasText n s
  | status {m s} (hdata : n.frontMatter = some m) (h : m.get? "status" = some (.str s)) : HasText n s
  | tags {m items} (hdata : n.frontMatter = some m) (h : m.get? "tags" = some (.list items)) :
    HasText n (" ".intercalate (items.map Value.plain))

/-- The characters stand side by side in one of these texts, or in one tag. -/
inductive Holds (n : IndexedNote) (part : List Char) : Prop
  | text {s} (h : n.HasText s) (hpart : part <:+: s.toList) : Holds n part
  | tag {m items v s} (hdata : n.frontMatter = some m) (h : m.get? "tags" = some (.list items)) (hv : v ∈ items)
    (hs : v.bare = .str s) (hpart : part <:+: s.toList) : Holds n part

/-- A tag holds an integer that cannot be written. -/
def HasLongTag (n : IndexedNote) : Prop :=
  ∃ m items, n.frontMatter = some m ∧ m.get? "tags" = some (.list items) ∧ ∃ v ∈ items, v.hasLongInteger = true

variable {n : IndexedNote} {query s : String}

theorem hasLongTag_iff : n.hasLongTag = true ↔ n.HasLongTag := by
  unfold hasLongTag HasLongTag
  cases n.frontMatter with
  | none => simp
  | some m =>
    rw [Option.bind_some]
    split
    next items h => simp [h, Value.anyLongInteger_eq_any]
    next hnot => simpa using fun items h => absurd h (hnot items)

theorem hasText_status : (∃ m, n.frontMatter = some m ∧ m.get? "status" = some (.str s)) ↔ n.status? = some s := by
  unfold status?
  cases n.frontMatter with
  | none => simp
  | some m =>
    rw [Option.bind_some]
    split
    next t h => simp [h]
    next hnot => simpa using hnot s

theorem hasText_tags : (∃ m items, n.frontMatter = some m ∧ m.get? "tags" = some (.list items) ∧
    " ".intercalate (items.map Value.plain) = s) ↔ n.tagLine? = some s := by
  unfold tagLine?
  cases n.frontMatter with
  | none => simp
  | some m =>
    rw [Option.bind_some]
    split
    next items h => simp [h]
    next hnot => simpa using fun items h => absurd h (hnot items)

theorem hasText_iff : n.HasText s ↔
    n.id = some s ∨ n.title = some s ∨ n.type = some s ∨ n.status? = some s ∨ n.tagLine? = some s := by
  rw [← hasText_status, ← hasText_tags]
  constructor
  · rintro (h | h | h | ⟨hdata, h⟩ | ⟨hdata, h⟩)
    · exact .inl h
    · exact .inr (.inl h)
    · exact .inr (.inr (.inl h))
    · exact .inr (.inr (.inr (.inl ⟨_, hdata, h⟩)))
    · exact .inr (.inr (.inr (.inr ⟨_, _, hdata, h, rfl⟩)))
  · rintro (h | h | h | ⟨_, hdata, h⟩ | ⟨_, _, hdata, h, rfl⟩)
    · exact .id h
    · exact .title h
    · exact .type h
    · exact .status hdata h
    · exact .tags hdata h

theorem HasText.mem (h : n.HasText s) : s ∈ n.searchTexts := by
  rw [hasText_iff] at h
  obtain h | h | h | h | h := h <;> simp [searchTexts, h]

/-- A text that is missing counts as an empty one. -/
theorem hasText_of_mem (h : s ∈ n.searchTexts) : n.HasText s ∨ s = "" := by
  have hmissing : ∀ o : Option String, s = o.getD "" → o = some s ∨ s = "" := fun o ho => by
    cases o with
    | none => exact .inr ho
    | some t => exact .inl (congrArg some ho.symm)
  simp only [searchTexts, List.mem_append, List.mem_cons, List.not_mem_nil, or_false, Option.mem_toList] at h
  rw [hasText_iff]
  obtain (((h | h | h) | h) | h) := h
  · exact (hmissing _ h).imp_left .inl
  · exact (hmissing _ h).imp_left fun h => .inr (.inl h)
  · exact (hmissing _ h).imp_left fun h => .inr (.inr (.inl h))
  · exact .inl (.inr (.inr (.inr (.inl h))))
  · exact .inl (.inr (.inr (.inr (.inr h))))

theorem isMatch_iff : n.isMatch (Text.lower query) = true ↔
    query = "" ∨ ∃ s, n.HasText s ∧ (Text.lower query).toList <:+: (Text.lower s).toList := by
  simp only [isMatch, List.any_eq_true, Text.occursIn_iff]
  constructor
  · rintro ⟨s, hs, hquery⟩
    obtain h | rfl := hasText_of_mem hs
    · exact .inr ⟨s, h, hquery⟩
    · exact .inl (Text.lower_eq_empty_iff.1 (String.toList_eq_nil_iff.1 (List.infix_nil.1 hquery)))
  · rintro (rfl | ⟨s, h, hquery⟩)
    · exact ⟨n.id.getD "", by simp [searchTexts], List.nil_infix⟩
    · exact ⟨s, h.mem, hquery⟩

/-- A note that holds a variant of the query has a text that is found. -/
theorem Holds.exists_text {part : List Char} (h : n.Holds part) (hsigmas : Text.DecidesSigmas query.toList)
    (hvariant : List.Forall₂ Text.IsCaseVariant query.toList part) :
    ∃ s, n.HasText s ∧ (Text.lower query).toList <:+: (Text.lower s).toList := by
  obtain ⟨htext, hpart⟩ | ⟨hdata, htags, hv, hs, hpart⟩ := h
  · exact ⟨_, htext, Text.lower_infix hsigmas hpart hvariant⟩
  · refine ⟨_, .tags hdata htags, Text.lower_infix hsigmas (hpart.trans ?_) hvariant⟩
    refine Text.infix_intercalate (List.mem_map.2 ⟨_, hv, ?_⟩)
    rw [Value.plain, hs]

end IndexedNote

namespace VaultGraph

variable {i : VaultIndex} {type : Option String}

theorem mem_candidates {n : IndexedNote} :
    n ∈ (ofIndex i).candidates type ↔ n ∈ i.notes.values ∧ n.IsOfType type := by
  simp [candidates, notes, ofIndex, IndexedNote.IsOfType]

theorem any_hasLongTag_iff : ((ofIndex i).candidates type).any IndexedNote.hasLongTag = true ↔
    ∃ n ∈ i.notes.values, n.IsOfType type ∧ n.HasLongTag := by
  simp only [List.any_eq_true, mem_candidates, IndexedNote.hasLongTag_iff, and_assoc]

/-- The notes of a type that match a query, in one go. -/
def matching (query : String) (type : Option String) (n : IndexedNote) : Bool :=
  (type.isNone || n.type = type) && n.isMatch (Text.lower query)

theorem filter_candidates (query : String) : ((ofIndex i).candidates type).filter (·.isMatch (Text.lower query)) =
    i.notes.values.filter (matching query type) := by
  rw [candidates, List.filter_filter]
  exact List.filter_congr fun n _ => Bool.and_comm ..

theorem matching_iff {query : String} {n : IndexedNote} : matching query type n = true ↔ n.IsOfType type ∧
    (query = "" ∨ ∃ s, n.HasText s ∧ (Text.lower query).toList <:+: (Text.lower s).toList) := by
  rw [matching, Bool.and_eq_true, IndexedNote.isMatch_iff]
  simp [IndexedNote.IsOfType]

theorem search_of_writable (h : ∀ n ∈ i.notes.values, n.IsOfType type → ¬ n.HasLongTag) (query : String)
    (limit : Option Int) :
    (ofIndex i).search query type limit = .ok (match limit with
      | none => i.notes.values.filter (matching query type)
      | some stop => Text.upToEnd (i.notes.values.filter (matching query type)) stop) := by
  have hnone : ¬ ((ofIndex i).candidates type).any IndexedNote.hasLongTag = true := fun hany => by
    obtain ⟨n, hn, htype, hlong⟩ := any_hasLongTag_iff.1 hany
    exact h n hn htype hlong
  rw [search, if_neg hnone, filter_candidates]
  cases limit <;> rfl

/-- A search finds the notes of a type that have a text with the query in it, both in lower case, in the order of the
index, the first ones of them if there is a limit; it fails exactly where one of the type has a tag that cannot be
written. A query that decides the form of its sigmas finds every note that holds it, in any case of the letters of
ASCII; one that does not misses itself in some text. -/
theorem search_finds (i : VaultIndex) (query : String) (type : Option String) :
    ((∃ n ∈ i.notes.values, n.IsOfType type ∧ n.HasLongTag) →
      ∀ limit, (ofIndex i).search query type limit = .error .longInteger) ∧
    ((∀ n ∈ i.notes.values, n.IsOfType type → ¬ n.HasLongTag) → ∃ found : IndexedNote → Bool,
      (∀ n, found n = true ↔ n.IsOfType type ∧
        (query = "" ∨ ∃ s, n.HasText s ∧ (Text.lower query).toList <:+: (Text.lower s).toList)) ∧
      (ofIndex i).search query type none = .ok (i.notes.values.filter found) ∧
      (∀ limit : Nat, (ofIndex i).search query type (some limit) = .ok ((i.notes.values.filter found).take limit)) ∧
      (Text.DecidesSigmas query.toList → ∀ n part, n.IsOfType type → n.Holds part →
        List.Forall₂ Text.IsCaseVariant query.toList part → found n = true)) ∧
    (¬ Text.DecidesSigmas query.toList →
      ∃ s : String, query.toList <:+: s.toList ∧ ¬ (Text.lower query).toList <:+: (Text.lower s).toList) := by
  refine ⟨fun hlong limit => ?_, fun hwritable => ⟨matching query type, fun n => matching_iff, ?_, fun limit => ?_, ?_⟩,
    Text.exists_missed⟩
  · rw [search, if_pos (any_hasLongTag_iff.2 hlong)]
  · exact search_of_writable hwritable query none
  · rw [search_of_writable hwritable]
    exact congrArg Except.ok (if_neg (by omega))
  · exact fun hsigmas n part htype hpart hvariant => matching_iff.2 ⟨htype, .inr (hpart.exists_text hsigmas hvariant)⟩

/-- A tag is found whose letters are of another case. -/
theorem search_finds_tag :
    let files := [("a.md", "---\ntype: idea\ntitle: Eta\n---\n"), ("b.md", "---\ntype: idea\ntags: [one, alphaBETA]\n---\n")]
    ∃ i n found, VaultIndex.build .standard .default files = .ok i ∧ i.notes.get? "b.md" = some n ∧
      n.Holds ['B', 'E', 'T', 'A'] ∧ (ofIndex i).search "beTa" (some "idea") none = .ok found ∧ n ∈ found := by
  intro files
  have hbuilt : ((VaultIndex.build .standard .default files).toOption.any fun i => i.notes.values.all (!·.hasLongTag) ∧
      (i.notes.get? "b.md").any fun n => n.type = some "idea" ∧
        (n.frontMatter.bind (·.get? "tags")) = some (.list [.str "one", .str "alphaBETA"])) = true := by decide +kernel
  clear_value files
  obtain ⟨i, hi, hany⟩ := exists_of_toOption_any hbuilt
  obtain ⟨hall, hnote⟩ := of_decide_eq_true hany
  obtain ⟨n, hn, hnote⟩ := Option.any_eq_true _ _ |>.1 hnote
  obtain ⟨htype, htags⟩ := of_decide_eq_true hnote
  obtain ⟨m, hdata, htags⟩ := Option.bind_eq_some_iff.1 htags
  have hholds : n.Holds ['B', 'E', 'T', 'A'] :=
    .tag hdata htags (v := .str "alphaBETA") (by simp) rfl ⟨"alpha".toList, [], by decide⟩
  have hwritable : ∀ n ∈ i.notes.values, n.IsOfType (some "idea") → ¬ n.HasLongTag := fun n hn _ hlong => by
    simpa [IndexedNote.hasLongTag_iff.2 hlong] using List.all_eq_true.1 hall n hn
  obtain ⟨found, -, hsearch, -, hfinds⟩ := (search_finds i "beTa" (some "idea")).2.1 hwritable
  have hfound := hfinds (Text.decidesSigmas_of_not_mem (by decide)) n _ (.inr htype) hholds (by decide)
  have hmem : n ∈ i.notes.values := List.mem_map_of_mem (f := (·.2)) (Dictionary.mem_of_get? hn)
  exact ⟨i, n, _, hi, hn, hholds, hsearch, List.mem_filter.2 ⟨hmem, hfound⟩⟩

/-- A title that holds the query is missed: the last letter of the query is a final sigma, and an inner one in the
title. -/
theorem search_misses_sigma : ¬ ∀ (files : List (String × String)) (i : VaultIndex) (n : IndexedNote) (query title : String)
    (found : List IndexedNote), VaultIndex.build .standard .default files = .ok i → n ∈ i.notes.values →
      n.title = some title → query.toList <:+: title.toList → (ofIndex i).search query none none = .ok found → n ∈ found := by
  intro h
  have hbuilt : ((VaultIndex.build .standard .default [("a.md", "---\ntype: idea\ntitle: ΑΣΑ\n---\n")]).toOption.any fun i =>
      (i.notes.values.any fun n => n.title = some "ΑΣΑ") ∧
        ((ofIndex i).search "ΑΣ" none none).toOption.any List.isEmpty) = true := by decide +kernel
  obtain ⟨i, hi, hany⟩ := exists_of_toOption_any hbuilt
  obtain ⟨hnote, hsearch⟩ := of_decide_eq_true hany
  obtain ⟨n, hn, htitle⟩ := List.any_eq_true.1 hnote
  obtain ⟨found, hfound, hempty⟩ := exists_of_toOption_any hsearch
  have hmem := h _ i n "ΑΣ" "ΑΣΑ" found hi hn (of_decide_eq_true htitle) ⟨[], ['Α'], by decide⟩ hfound
  rw [List.isEmpty_iff.1 hempty] at hmem
  exact List.not_mem_nil hmem

end VaultGraph

end NoteVault
