import NoteVault.Proofs.Note.Header
import NoteVault.Proofs.Value.Links
import NoteVault.Proofs.Yaml.Ends

/-!
Front matter of null, truth values, integers, texts, lists and mappings, with printable ASCII characters
and line feeds in texts and keys, is read back as it is written.
-/
namespace NoteVault

namespace Value

open Yaml (isPrintable)

mutual

/-- A tree of null, truth values, integers that can be written, texts, lists and mappings, no object of which
is shared; texts and keys consist of printable ASCII characters and line feeds. -/
def isPlainTree : Value → Bool
  | null | bool _ => true
  | int n => n.natAbs < Nat.pow 10 Number.maxDigits
  | str s => s.toList.all isPrintable
  | list items => arePlainTrees items
  | map entries => (Dictionary.keys entries).Nodup && entriesArePlain entries
  | _ => false

def arePlainTrees : List Value → Bool
  | [] => true
  | v :: rest => isPlainTree v && arePlainTrees rest

def entriesArePlain : List (String × Value) → Bool
  | [] => true
  | (k, v) :: rest => k.toList.all isPrintable && isPlainTree v && entriesArePlain rest

end

theorem arePlainTrees_eq_all (items : List Value) : arePlainTrees items = items.all isPlainTree := by
  induction items with
  | nil => rfl
  | cons v rest ih => rw [arePlainTrees, ih, List.all_cons]

theorem entriesArePlain_eq_all (entries : List (String × Value)) :
    entriesArePlain entries = entries.all fun e => e.1.toList.all isPrintable && isPlainTree e.2 := by
  induction entries with
  | nil => rfl
  | cons e rest ih => rw [entriesArePlain, ih, List.all_cons]

/-- A reference is a tree of the same kind when it is written as a link. -/
theorem asLink_plain {v : Value} (h : v.isPlainTree = true) : v.asLink.isPlainTree = true := by
  cases v with
  | str s =>
    rw [asLink]
    split
    next hlink =>
      simp only [Bool.and_eq_true, decide_eq_true_eq] at hlink
      have hnot : WikiLink.isLink s = false :=
        WikiLink.unwrap_eq_self_iff.1 (WikiLink.unwrap_of_unwrap_wrap hlink.2)
      have hwrap : WikiLink.wrap s = "[[" ++ s ++ "]]" := by simp [WikiLink.wrap, hnot]
      rw [isPlainTree, List.all_eq_true] at h ⊢
      rw [hwrap, String.toList_append, String.toList_append]
      intro c hc
      simp only [List.mem_append] at hc
      rcases hc with (hc | hc) | hc
      · exact List.all_eq_true.1 (by decide : "[[".toList.all isPrintable = true) c hc
      · exact h c hc
      · exact List.all_eq_true.1 (by decide : "]]".toList.all isPrintable = true) c hc
    next => exact h
  | _ => exact h

theorem asLinks_plain {v : Value} (h : v.isPlainTree = true) : v.asLinks.isPlainTree = true := by
  cases v with
  | list items =>
    rw [isPlainTree, arePlainTrees_eq_all, List.all_eq_true] at h
    rw [asLinks, isPlainTree, arePlainTrees_eq_all, List.all_map, List.all_eq_true]
    exact fun v hv => asLink_plain (h v hv)
  | shared _ _ => cases h
  | _ => simpa only [asLinks] using asLink_plain h

end Value

namespace Mapping

open Value
open Yaml (isPrintable)

theorem linkReferences_plain {m : Mapping} (references : List String) (h : (Value.map m).isPlainTree = true) :
    (Value.map (m.linkReferences references)).isPlainTree = true ∧
      linksAsTextEntries (m.linkReferences references) = linksAsTextEntries m := by
  refine ⟨?_, linksAsTextEntries_linkReferences m references⟩
  rw [isPlainTree, Bool.and_eq_true, entriesArePlain_eq_all, List.all_eq_true] at h ⊢
  refine ⟨by rw [keys_linkReferences]; exact h.1, ?_⟩
  refine forall_mem_linkReferences (P := fun k v => (k.toList.all isPrintable && isPlainTree v) = true)
    (fun k v hv => ?_) h.2 references
  rw [Bool.and_eq_true] at hv ⊢
  exact ⟨hv.1, asLinks_plain hv.2⟩

end Mapping

namespace Value

mutual

theorem datesAsText_plain (v : Value) (h : v.isPlainTree = true) : v.datesAsText = v := by
  cases v with
  | list items => rw [datesAsText, datesAsTextList_plain items h]
  | map entries =>
    rw [isPlainTree, Bool.and_eq_true] at h
    rw [datesAsText, datesAsTextEntries_plain entries h.2]
  | tuple _ | set _ | bytes _ | float _ | date _ | datetime _ | shared _ _ => exact absurd h (by simp [isPlainTree])
  | _ => rfl

theorem datesAsTextList_plain (items : List Value) (h : arePlainTrees items = true) :
    datesAsTextList items = items := by
  cases items with
  | nil => rfl
  | cons v rest =>
    rw [arePlainTrees, Bool.and_eq_true] at h
    rw [datesAsTextList, datesAsText_plain v h.1, datesAsTextList_plain rest h.2]

theorem datesAsTextEntries_plain (entries : List (String × Value)) (h : entriesArePlain entries = true) :
    datesAsTextEntries entries = entries := by
  cases entries with
  | nil => rfl
  | cons e rest =>
    rw [entriesArePlain, Bool.and_eq_true, Bool.and_eq_true] at h
    rw [datesAsTextEntries, datesAsText_plain e.2 h.1.2, datesAsTextEntries_plain rest h.2]

end

mutual

theorem hasLongInteger_plain (v : Value) (h : v.isPlainTree = true) : v.hasLongInteger = false := by
  cases v with
  | int n =>
    rw [isPlainTree, decide_eq_true_eq] at h
    rw [hasLongInteger, decide_eq_false_iff_not]
    exact Nat.not_le_of_lt h
  | list items => rw [hasLongInteger, anyLongInteger_plain items h]
  | map entries =>
    rw [isPlainTree, Bool.and_eq_true] at h
    rw [hasLongInteger, entriesHaveLongInteger_plain entries h.2]
  | tuple _ | shared _ _ => exact absurd h (by simp [isPlainTree])
  | _ => rfl

theorem anyLongInteger_plain (items : List Value) (h : arePlainTrees items = true) : anyLongInteger items = false := by
  cases items with
  | nil => rfl
  | cons v rest =>
    rw [arePlainTrees, Bool.and_eq_true] at h
    rw [anyLongInteger, hasLongInteger_plain v h.1, anyLongInteger_plain rest h.2, Bool.or_self]

theorem entriesHaveLongInteger_plain (entries : List (String × Value)) (h : entriesArePlain entries = true) :
    entriesHaveLongInteger entries = false := by
  cases entries with
  | nil => rfl
  | cons e rest =>
    rw [entriesArePlain, Bool.and_eq_true, Bool.and_eq_true] at h
    rw [entriesHaveLongInteger, hasLongInteger_plain e.2 h.1.2, entriesHaveLongInteger_plain rest h.2, Bool.or_self]

end

end Value

namespace Yaml

open Value (isPlainTree arePlainTrees entriesArePlain)

mutual

theorem readsBack_plain (v : Value) (h : v.isPlainTree = true) : ReadsBack v := by
  cases v with
  | null => exact restores_null
  | bool b => exact restores_bool b
  | int n => exact restores_int (Value.hasLongInteger_plain _ h)
  | str s => exact restores_str (isKept_of_printable _ (List.all_eq_true.1 h))
  | list items => exact itemsReadBack_plain items h
  | map entries =>
    rw [isPlainTree, Bool.and_eq_true, decide_eq_true_eq] at h
    exact ⟨h.1, entriesReadBack_plain entries h.2⟩
  | _ => exact absurd h (by simp [isPlainTree])

theorem itemsReadBack_plain (items : List Value) (h : arePlainTrees items = true) : ItemsReadBack items := by
  cases items with
  | nil => trivial
  | cons v rest =>
    rw [arePlainTrees, Bool.and_eq_true] at h
    exact ⟨readsBack_plain v h.1, itemsReadBack_plain rest h.2⟩

theorem entriesReadBack_plain (entries : List (String × Value)) (h : entriesArePlain entries = true) :
    EntriesReadBack entries := by
  cases entries with
  | nil => trivial
  | cons e rest =>
    rw [entriesArePlain, Bool.and_eq_true, Bool.and_eq_true] at h
    exact ⟨isKey_of_printable (List.all_eq_true.1 h.1.1), readsBack_plain e.2 h.1.2, entriesReadBack_plain rest h.2⟩

end

mutual

theorem placed_plain {repeated : List Value} {ρ : Nat → Nat} (v : Value) (h : v.isPlainTree = true) :
    placed repeated ρ v = v := by
  cases v with
  | list items => rw [placed, placedItems_plain items h]
  | map entries =>
    rw [isPlainTree, Bool.and_eq_true] at h
    rw [placed, placedEntries_plain entries h.2]
  | shared _ _ => exact absurd h (by simp [isPlainTree])
  | _ => rfl

theorem placedItems_plain {repeated : List Value} {ρ : Nat → Nat} (items : List Value)
    (h : arePlainTrees items = true) :
    placedItems repeated ρ items = items := by
  cases items with
  | nil => rfl
  | cons v rest =>
    rw [arePlainTrees, Bool.and_eq_true] at h
    rw [placedItems, placed_plain v h.1, placedItems_plain rest h.2]

theorem placedEntries_plain {repeated : List Value} {ρ : Nat → Nat} (entries : List (String × Value))
    (h : entriesArePlain entries = true) : placedEntries repeated ρ entries = entries := by
  cases entries with
  | nil => rfl
  | cons e rest =>
    rw [entriesArePlain, Bool.and_eq_true, Bool.and_eq_true] at h
    rw [placedEntries, placed_plain e.2 h.1.2, placedEntries_plain rest h.2]

end

theorem endsDark_restored {v : Value} {tag : Tag} {wish : Option Style} {text : List Char}
    (hcontent : (Content.ofValue [] [] v).1 = .scalar none tag wish text) (h : (Content.ofValue [] [] v).1.Restores v)
    (hprintable : ∀ c ∈ text, isPrintable c = true) (hwish : wish ≠ some .literal) (n : Nat) (sameLine : Bool) :
    EndsDark (Content.write n sameLine (Content.ofValue [] [] v).1) := by
  obtain ⟨_, _, _, -, hsound, -⟩ := h
  rw [hcontent] at hsound ⊢
  exact ((endsDark_scalar hsound.2 hprintable hwish (n + 2)).cons ' ').append _

theorem wishOf_ne_literal (s : String) : Content.wishOf s ≠ some .literal := by
  unfold Content.wishOf
  split <;> simp

mutual

/-- What is written for a tree ends with a character that is no white space. -/
theorem endsDark_write {repeated written : List Value} (v : Value) (h : v.isPlainTree = true) (n : Nat)
    (sameLine : Bool) :
    EndsDark (Content.write n sameLine (Content.ofValue repeated written v).1) := by
  cases v with
  | null => exact endsDark_restored rfl restores_null (List.all_eq_true.1 (by decide)) (by simp) n sameLine
  | bool b =>
    exact endsDark_restored rfl (restores_bool b) (List.all_eq_true.1 (by cases b <;> decide)) (by simp) n sameLine
  | int k =>
    refine endsDark_restored rfl (restores_int (Value.hasLongInteger_plain _ h)) (fun c hc => ?_) (by simp) n sameLine
    rw [toList_toString_int] at hc
    exact isPrintable_of_isNumeral (isNumeral_integer hc)
  | str s =>
    rw [isPlainTree, List.all_eq_true] at h
    exact endsDark_restored rfl (restores_str (isKept_of_printable _ h)) h (wishOf_ne_literal s) n sameLine
  | list items =>
    rw [Content.ofValue, Content.write]
    refine EndsDark.append ?_ _
    split
    · exact ⟨[' ', '['], ']', rfl, by decide⟩
    next hne =>
      refine endsDark_place ?_ (endsDark_writeItems items h _)
      cases items with
      | nil => exact absurd rfl hne
      | cons v rest => simp [Content.ofList, Content.writeItems]
  | map entries =>
    rw [isPlainTree, Bool.and_eq_true] at h
    rw [Content.ofValue, Content.write]
    refine EndsDark.append ?_ _
    split
    · exact ⟨[' ', '\x7b'], '\x7d', rfl, by decide⟩
    next hne =>
      refine endsDark_place ?_ (endsDark_writeEntries entries h.2 _)
      cases entries with
      | nil => exact absurd rfl hne
      | cons e rest => simp [Content.ofEntries, Content.writeEntries]
  | _ => exact absurd h (by simp [isPlainTree])

theorem endsDark_writeItems {repeated written : List Value} (items : List Value) (h : arePlainTrees items = true)
    (n : Nat) :
    ∀ e ∈ Content.writeItems n (Content.ofList repeated written items).1, EndsDark e := by
  cases items with
  | nil => simp [Content.ofList, Content.writeItems]
  | cons v rest =>
    rw [arePlainTrees, Bool.and_eq_true] at h
    rintro e (- | ⟨_, he⟩)
    · exact (endsDark_write v h.1 n true).cons '-'
    · exact endsDark_writeItems rest h.2 n e he

theorem endsDark_writeEntries {repeated written : List Value} (entries : List (String × Value))
    (h : entriesArePlain entries = true) (n : Nat) :
    ∀ e ∈ Content.writeEntries n (Content.ofEntries repeated written entries).1, EndsDark e := by
  cases entries with
  | nil => simp [Content.ofEntries, Content.writeEntries]
  | cons e rest =>
    rw [entriesArePlain, Bool.and_eq_true, Bool.and_eq_true] at h
    rintro d (- | ⟨_, hd⟩)
    · dsimp only
      split
      · exact ((endsDark_write e.2 h.1.2 n false).cons ':').append _
      · exact ((endsDark_write e.2 h.1.2 n true).cons ':').append _
    · exact endsDark_writeEntries rest h.2 n d hd

end

theorem trimBy_writeAll {m : Mapping} (hne : m ≠ []) (h : entriesArePlain m = true) :
    Text.trimBy Text.isBlank (Content.writeAll (Content.ofMapping m)) = Content.writeAll (Content.ofMapping m) := by
  obtain ⟨⟨k, v⟩, rest, rfl⟩ := List.exists_cons_of_ne_nil hne
  refine trimBy_of_dark ?_
    (endsDark_writeAll (by simp [Content.ofMapping, Content.ofEntries]) (endsDark_writeEntries _ h 0))
  rw [entriesArePlain, Bool.and_eq_true, Bool.and_eq_true, List.all_eq_true] at h
  exact startsDark_writeAll h.1.1 _ _

end Yaml

namespace Note

open Value (isPlainTree linksAsTextEntries)

/-- Front matter that is a tree of null, truth values, integers, texts, lists and mappings, with printable ASCII
characters and line feeds in texts and keys, is written, and the note of that header and any body has no issue,
the body, and the front matter with links as their targets. -/
theorem parse_stringify {m : Mapping} (references : List String) {body : String}
    (hm : (Value.map m).isPlainTree = true) (hbody : atLineEnd body.toList = true) :
    ∃ header text, stringify m references = .ok header ∧
      parse (assemble header body) = .ok ⟨some (linksAsTextEntries m), body, [], text⟩ := by
  obtain ⟨hplain, hlinks⟩ := Mapping.linkReferences_plain references hm
  set n := m.linkReferences references with hn
  rw [isPlainTree, Bool.and_eq_true] at hplain
  have hs : stringify m references = .ok (headerText n) := by
    rw [stringify, ← hn, if_neg (by simp [Value.entriesHaveLongInteger_plain n hplain.2])]
  have hends : KeepsEnds n := by
    by_cases hne : n = []
    · rw [hne]
      rfl
    · exact Yaml.trimBy_writeAll hne hplain.2
  obtain ⟨ρ, text, -, hparse⟩ := parse_assemble
    (Yaml.readsBack_plain (.map n) (by rw [isPlainTree, Bool.and_eq_true]; exact hplain)) hends hbody hs
  refine ⟨headerText n, text, hs, ?_⟩
  rw [hparse, Yaml.placedEntries_plain n hplain.2, Value.normalEntries, Value.datesAsTextEntries_plain n hplain.2, hlinks]

/-- A mapping with texts that look like other kinds, in a note whose body is a carriage return. -/
theorem parse_stringify_lookalikes :
    ∃ header text, stringify [("a b", .list [.str "12", .str "x", .null]), ("<<", .map [("", .str "a\n - b: ")])] ["a b"] =
        .ok header ∧
      parse (assemble header "\r") = .ok ⟨some (linksAsTextEntries [("a b", .list [.str "12", .str "x", .null]),
        ("<<", .map [("", .str "a\n - b: ")])]), "\r", [], text⟩ :=
  parse_stringify ["a b"] (by decide +kernel) (by decide +kernel)

end Note

end NoteVault
