import NoteVault.Note.Write
import NoteVault.Proofs.Dictionary
import NoteVault.Proofs.Value.Normal

/-!
References as links. A text is written as a link where the link stands for it, so that links and their targets cancel:
front matter means the same with links in its references as without them.
-/
namespace NoteVault

namespace WikiLink

/-- A text that a link can stand for. -/
structure IsTarget (target : String) : Prop where
  nonempty : target ≠ ""
  flat : ∀ c ∈ target.toList, isBracket c = false

theorem isLink_iff {s : String} : isLink s = true ↔ ∃ target, IsTarget target ∧ s = "[[" ++ target ++ "]]" := by
  rw [isLink, Option.isSome_iff_exists]
  constructor
  · rintro ⟨t, ht⟩
    obtain ⟨htext, hne, hflat⟩ := target?_eq_some.1 ht
    refine ⟨String.ofList t, ⟨by simpa using hne, by simpa using hflat⟩, String.toList_inj.1 ?_⟩
    simpa using htext
  · rintro ⟨target, htarget, rfl⟩
    refine ⟨target.toList, target?_eq_some.2 ⟨by simp, ?_, htarget.flat⟩⟩
    simpa using htarget.nonempty

theorem IsTarget.isLink_eq_false {s : String} (h : IsTarget s) : isLink s = false := by
  by_contra hlink
  obtain ⟨target, -, rfl⟩ := isLink_iff.1 (Bool.not_eq_false _ ▸ hlink)
  cases h.flat '[' (by simp)

theorem IsTarget.unwrap {s : String} (h : IsTarget s) : unwrap ("[[" ++ s ++ "]]") = s := by
  have htarget : target? ("[[" ++ s ++ "]]").toList = some s.toList :=
    target?_eq_some.2 ⟨by simp, by simpa using h.nonempty, h.flat⟩
  rw [WikiLink.unwrap, htarget]
  exact String.ofList_toList

/-- A text that a link stands for is no link, so the link is another text. -/
theorem isLink_wrap {s : String} (h : unwrap (wrap s) = s) : isLink (wrap s) = true ∧ wrap s ≠ s := by
  have hne : wrap s ≠ s := by
    intro hself
    have hnot : isLink s = false := unwrap_eq_self_iff.1 (by rwa [hself] at h)
    rw [wrap, hnot, if_neg Bool.false_ne_true] at hself
    have hlength := congrArg String.length hself
    simp only [String.length_append] at hlength
    have : 0 < "[[".length := by decide
    omega
  exact ⟨by_contra fun hnot => hne ((unwrap_eq_self_iff.2 (Bool.not_eq_true _ ▸ hnot)).symm.trans h), hne⟩

theorem unwrap_of_unwrap_wrap {s : String} (h : unwrap (wrap s) = s) : unwrap s = s := by
  rw [unwrap_eq_self_iff]
  by_contra hlink
  have hself : wrap s = s := if_pos (Bool.not_eq_false _ ▸ hlink : isLink s = true)
  exact (isLink_wrap h).2 hself

end WikiLink

namespace Value

open WikiLink

theorem IsNormal.normal_asLink {v : Value} (h : v.IsNormal) : v.asLink.normal = v := by
  cases v with
  | str s =>
    rw [asLink]
    split
    next hlink =>
      simp only [Bool.and_eq_true, decide_eq_true_eq] at hlink
      rw [normal_str, hlink.2]
    next => exact h
  | _ => exact h

/-- A reference that is written as a link is read as it was. -/
theorem IsNormal.normal_asLinks {v : Value} (h : v.IsNormal) : v.asLinks.normal = v := by
  cases v with
  | list items =>
    rw [asLinks, normal_list, List.map_map, list.injEq, map_eq_self_iff]
    exact fun v hv => (isNormal_list.1 h v hv).normal_asLink
  | shared place v =>
    cases v with
    | list items => cases h
    | _ => exact h
  | _ => simpa only [asLinks] using h.normal_asLink

/-- A text that a link can stand for is written as a link. -/
theorem asLinks_of_isTarget {s : String} (h : IsTarget s) : (str s).asLinks = str ("[[" ++ s ++ "]]") := by
  have hwrap : wrap s = "[[" ++ s ++ "]]" := if_neg (by simp [h.isLink_eq_false])
  rw [asLinks, asLink, hwrap, h.unwrap]
  · simp [h.nonempty]
  all_goals exact nofun

theorem asLink_asLink (v : Value) : v.asLink.asLink = v.asLink := by
  cases v with
  | str s =>
    rw [asLink]
    split
    next hlink =>
      simp only [Bool.and_eq_true, decide_eq_true_eq] at hlink
      obtain ⟨hwrapped, hne⟩ := isLink_wrap hlink.2
      have hself : wrap (wrap s) = wrap s := by rw [wrap, if_pos hwrapped]
      rw [asLink, hself, hlink.2, if_neg (by simp [Ne.symm hne])]
    next hnot => rw [asLink, if_neg hnot]
  | _ => rfl

theorem asLinks_asLinks (v : Value) : v.asLinks.asLinks = v.asLinks := by
  cases v with
  | list items => simp [asLinks, asLink_asLink]
  | shared place v =>
    cases v with
    | list items => simp [asLinks, asLink_asLink]
    | _ => rfl
  | str s =>
    have hkept : ∀ t, (str t).asLinks = (str t).asLink := fun _ => rfl
    obtain ⟨t, ht⟩ : ∃ t, (str s).asLink = str t := by
      rw [asLink]
      split <;> exact ⟨_, rfl⟩
    rw [hkept, ht, hkept, ← ht, asLink_asLink]
  | _ => rfl

theorem linksAsText_asLink (v : Value) : v.asLink.linksAsText = v.linksAsText := by
  cases v with
  | str s =>
    rw [asLink]
    split
    next hlink =>
      simp only [Bool.and_eq_true, decide_eq_true_eq] at hlink
      rw [linksAsText, linksAsText, hlink.2, unwrap_of_unwrap_wrap hlink.2]
    next => rfl
  | _ => rfl

/-- A reference stands for the same texts when it is written as a link. -/
theorem linksAsText_asLinks (v : Value) : v.asLinks.linksAsText = v.linksAsText := by
  cases v with
  | list items => simp [asLinks, linksAsText, linksAsText_asLink]
  | shared place v =>
    cases v with
    | list items => simp [asLinks, linksAsText, linksAsText_asLink]
    | _ => rfl
  | str s => exact linksAsText_asLink (str s)
  | _ => rfl

/-- A value stands where a walk through lists and mappings comes to it. -/
inductive Reaches : Value → Value → Prop
  | self (v : Value) : Reaches v v
  | part {v part w : Value} (hpart : part ∈ v.parts) (h : Reaches part w) : Reaches v w

/-- A day or a point in time, whether or not other parts of the data hold it too. -/
def isDay : Value → Bool
  | date _ | datetime _ | shared _ (date _) | shared _ (datetime _) => true
  | _ => false

theorem IsNormal.part {v part : Value} (h : v.IsNormal) (hpart : part ∈ v.parts) : part.IsNormal := by
  cases v with
  | list items => exact isNormal_list.1 h part hpart
  | map entries =>
    obtain ⟨e, he, rfl⟩ := List.mem_map.1 hpart
    exact isNormal_map.1 h e he
  | shared place v =>
    cases v with
    | list items => cases h
    | map entries => cases h
    | _ => cases hpart
  | _ => cases hpart

theorem IsNormal.of_reaches {v w : Value} (h : v.IsNormal) (hreaches : v.Reaches w) : w.IsNormal := by
  induction hreaches with
  | self v => exact h
  | part hpart _ ih => exact ih (h.part hpart)

theorem IsNormal.isDay_eq_false {v : Value} (h : v.IsNormal) : v.isDay = false := by
  cases v with
  | date d => cases h
  | datetime t => cases h
  | shared place v =>
    cases v with
    | date d => cases h
    | datetime t => cases h
    | _ => rfl
  | _ => rfl

theorem IsNormal.ne_link {v : Value} (h : v.IsNormal) {target : String} (htarget : IsTarget target) :
    v ≠ str ("[[" ++ target ++ "]]") := by
  rintro rfl
  have hlink : isLink ("[[" ++ target ++ "]]") = true := isLink_iff.2 ⟨target, htarget, rfl⟩
  rw [isNormal_str.1 h] at hlink
  cases hlink

end Value

namespace Mapping

/-- Fields that are adjusted one after another, with a change that is the same when it is made twice. -/
theorem foldl_adjust {f : Value → Value} (hf : ∀ v, f (f v) = f v) (names : List String) (m : Mapping) :
    names.foldl (fun m name => m.adjust name f) m = m.map fun (k, v) => (k, if k ∈ names then f v else v) := by
  induction names generalizing m with
  | nil => simp
  | cons name names ih =>
    rw [List.foldl_cons, ih, adjust, List.map_map]
    refine List.map_congr_left fun e _ => ?_
    by_cases hname : e.1 = name <;> by_cases hnames : e.1 ∈ names <;> simp_all

theorem linkReferences_eq_map (m : Mapping) (fields : List String) :
    m.linkReferences fields = m.map fun (k, v) => (k, if k ∈ fields then v.asLinks else v) :=
  foldl_adjust Value.asLinks_asLinks fields m

/-- What holds of all values, and of a reference that is written as a link, holds of all values with links. -/
theorem forall_mem_linkReferences {P : String → Value → Prop} (hlinks : ∀ k v, P k v → P k v.asLinks) {m : Mapping}
    (h : ∀ e ∈ m, P e.1 e.2) (fields : List String) : ∀ e ∈ m.linkReferences fields, P e.1 e.2 := by
  rw [linkReferences_eq_map, List.forall_mem_map]
  intro e he
  dsimp only
  split
  · exact hlinks _ _ (h e he)
  · exact h e he

variable (m : Mapping) (fields : List String)

theorem get?_linkReferences (key : String) :
    (m.linkReferences fields).get? key = (m.get? key).map fun v => if key ∈ fields then v.asLinks else v := by
  rw [linkReferences_eq_map, Dictionary.get?_map fun k v => if k ∈ fields then Value.asLinks v else v]

theorem linkReferences_linkReferences : (m.linkReferences fields).linkReferences fields = m.linkReferences fields := by
  simp only [linkReferences_eq_map, List.map_map]
  refine List.map_congr_left fun e _ => Prod.ext rfl ?_
  simp only [Function.comp]
  split
  · exact Value.asLinks_asLinks e.2
  · rfl

theorem linksAsTextEntries_linkReferences :
    Value.linksAsTextEntries (m.linkReferences fields) = Value.linksAsTextEntries m := by
  rw [Value.linksAsTextEntries_eq_map, Value.linksAsTextEntries_eq_map, linkReferences_eq_map, List.map_map]
  refine List.map_congr_left fun e _ => Prod.ext rfl ?_
  simp only [Function.comp]
  split
  · exact Value.linksAsText_asLinks e.2
  · rfl

/-- Days become texts and links their targets in any order and as often as one likes, and no day and no link is left
where a walk through lists and mappings comes to it. Links in references change no key and no other value, stand for
every text that they can, are all there after the first time, and are gone when all links become their targets. -/
theorem links_cancel (v : Value) (m : Mapping) (fields : List String) :
    v.datesAsText.datesAsText = v.datesAsText ∧ v.linksAsText.linksAsText = v.linksAsText ∧
    v.datesAsText.linksAsText = v.linksAsText.datesAsText ∧
    (∀ w, v.normal.Reaches w →
      w.isDay = false ∧ ∀ target, WikiLink.IsTarget target → w ≠ .str ("[[" ++ target ++ "]]")) ∧
    let linked := m.linkReferences fields
    linked.keys = m.keys ∧ (∀ key, key ∉ fields → linked.get? key = m.get? key) ∧
    (∀ key ∈ fields, ∀ target, WikiLink.IsTarget target → m.get? key = some (.str target) →
      linked.get? key = some (.str ("[[" ++ target ++ "]]"))) ∧
    linked.linkReferences fields = linked ∧ (Value.map linked).linksAsText = (Value.map m).linksAsText := by
  refine ⟨v.datesAsText_datesAsText, v.linksAsText_linksAsText, v.linksAsText_datesAsText, fun w hw => ?_, ?_⟩
  · have hnormal := v.isNormal_normal.of_reaches hw
    exact ⟨hnormal.isDay_eq_false, fun target htarget => hnormal.ne_link htarget⟩
  · refine ⟨keys_linkReferences m fields, fun key hkey => ?_, fun key hkey target htarget hget => ?_,
      linkReferences_linkReferences m fields, ?_⟩
    · rw [get?_linkReferences]
      simp [hkey]
    · rw [get?_linkReferences, hget, Option.map_some, if_pos hkey, Value.asLinks_of_isTarget htarget]
    · rw [Value.linksAsText, Value.linksAsText, linksAsTextEntries_linkReferences]

/-- A link deep inside, a day that two parts of the data hold, and references of all kinds: a text, a link, texts that
no link can stand for, and a field that is named twice. -/
theorem links_cancel_nested :
    let day : Value := .shared ⟨0, 0⟩ (.date ⟨2024, 2, 29, by decide, by decide, by decide⟩)
    let v : Value := .list [day, .map [("a", .list [.str "[[x]]", .str "[[a[b]]", day])]]
    let m : Mapping := [("one", .str "x"), ("two", .list [.str "[[y]]", .str "a]b", .str "", .null]), ("other", .str "x")]
    let linked : Mapping := [("one", .str "[[x]]"), ("two", .list [.str "[[y]]", .str "a]b", .str "", .null]),
      ("other", .str "x")]
    v.normal = .list [.str "2024-02-29", .map [("a", .list [.str "x", .str "[[a[b]]", .str "2024-02-29"])]] ∧
      v.normal.Reaches (.str "x") ∧ WikiLink.IsTarget "x" ∧ Value.str "x" ≠ .str "[[x]]" ∧
      m.linkReferences ["two", "one", "none", "two"] = linked ∧ "other" ∉ ["two", "one", "none", "two"] ∧
      linked.get? "other" = m.get? "other" ∧ linked.get? "one" = some (.str ("[[" ++ "x" ++ "]]")) ∧
      linked.linkReferences ["two", "one", "none", "two"] = linked ∧
      (Value.map linked).linksAsText = (Value.map m).linksAsText := by
  intro day v m linked
  have hnormal : v.normal =
      .list [.str "2024-02-29", .map [("a", .list [.str "x", .str "[[a[b]]", .str "2024-02-29"])]] := by decide +kernel
  have hlinked : m.linkReferences ["two", "one", "none", "two"] = linked := by decide +kernel
  have hother : "other" ∉ ["two", "one", "none", "two"] := by decide
  have htarget : WikiLink.IsTarget "x" := ⟨by decide, by simp [WikiLink.isBracket]⟩
  have hreaches : v.normal.Reaches (.str "x") := by
    rw [hnormal]
    exact .part (.tail _ (.head _)) (.part (.head _) (.part (.head _) (.self _)))
  obtain ⟨-, -, -, hleft, -, hkept, hlinks, htwice, hcancel⟩ := links_cancel v m ["two", "one", "none", "two"]
  rw [hlinked] at hkept hlinks htwice hcancel
  exact ⟨hnormal, hreaches, htarget, (hleft _ hreaches).2 "x" htarget, hlinked, hother, hkept "other" hother,
    hlinks "one" (by decide) "x" htarget rfl, htwice, hcancel⟩

end Mapping

end NoteVault
