import Mathlib.Tactic
import NoteVault.Proofs.Calendar
import NoteVault.Value.Normal

/-!
Values in normal form: no date, no point in time and no link stands where the walk through lists and mappings
comes to it. Dates and links do not get in each other's way, and values become normal in one step.
-/
namespace NoteVault

theorem map_eq_self_iff {α : Type} {f : α → α} {xs : List α} : xs.map f = xs ↔ ∀ x ∈ xs, f x = x := by
  simpa using List.map_inj_left (l := xs) (f := f) (g := id)

namespace WikiLink

theorem isLink_unwrap (s : String) : isLink (unwrap s) = false := by
  unfold unwrap
  cases h : target? s.toList with
  | none => simp [isLink, h]
  | some t =>
    obtain ⟨-, -, hflat⟩ := target?_eq_some.1 h
    have hnone : target? t = none := by
      refine Option.eq_none_iff_forall_ne_some.2 fun u hu => ?_
      obtain ⟨rfl, -, -⟩ := target?_eq_some.1 hu
      exact absurd (hflat '[' (by simp)) (by decide)
    simp [isLink, hnone]

theorem unwrap_eq_self_iff {s : String} : unwrap s = s ↔ isLink s = false := by
  constructor
  · exact fun h => h ▸ isLink_unwrap s
  · intro h
    rw [isLink, Option.isSome_eq_false_iff, Option.isNone_iff_eq_none] at h
    rw [unwrap, h]

/-- A day is written with a digit in front. -/
theorem isLink_dateText (d : Date) : isLink d.text = false := by
  by_contra h
  obtain ⟨target, htarget⟩ := Option.isSome_iff_exists.1 (Bool.not_eq_false _ ▸ h : isLink d.text = true)
  obtain ⟨htext, -, -⟩ := target?_eq_some.1 htarget
  obtain ⟨hne, hdigits, -⟩ := Date.number?_eq_some_iff.1 (Date.number?_padded 4 d.year)
  obtain ⟨c, rest, hyear⟩ := List.exists_cons_of_ne_nil hne
  have hc : c = '[' := by
    rw [Date.text, String.toList_append, String.toList_append, String.toList_append, String.toList_append,
      hyear] at htext
    exact (List.cons.inj htext).1
  have hdigit := hdigits c (by rw [hyear]; exact List.mem_cons_self)
  rw [hc] at hdigit
  exact absurd hdigit (by decide)

end WikiLink

namespace Value

open WikiLink

/-- What a walk through lists and mappings comes to next. -/
def parts : Value → List Value
  | list items => items
  | map entries => entries.map (·.2)
  | shared _ (list items) => items
  | shared _ (map entries) => entries.map (·.2)
  | _ => []

@[simp] theorem parts_list (items : List Value) : (list items).parts = items := rfl

@[simp] theorem parts_map (entries : List (String × Value)) : (map entries).parts = entries.map (·.2) := rfl

@[simp] theorem parts_sharedList (place : Place) (items : List Value) : (shared place (list items)).parts = items := rfl

@[simp] theorem parts_sharedMap (place : Place) (entries : List (String × Value)) :
    (shared place (map entries)).parts = entries.map (·.2) := rfl

theorem sizeOf_lt_of_mem_values {entries : List (String × Value)} {part : Value} (h : part ∈ entries.map (·.2)) :
    sizeOf part < sizeOf entries := by
  obtain ⟨⟨k, v⟩, he, rfl⟩ := List.mem_map.1 h
  have hlt := List.sizeOf_lt_of_mem he
  simp only [Prod.mk.sizeOf_spec] at hlt
  dsimp only
  omega

theorem sizeOf_lt_of_mem_parts {v part : Value} (h : part ∈ v.parts) : sizeOf part < sizeOf v := by
  cases v with
  | list items =>
    have hlt := List.sizeOf_lt_of_mem h
    simp only [parts_list] at hlt
    simp only [list.sizeOf_spec]
    omega
  | map entries =>
    have hlt := sizeOf_lt_of_mem_values h
    simp only [map.sizeOf_spec]
    omega
  | shared place v =>
    cases v with
    | list items =>
      have hlt := List.sizeOf_lt_of_mem h
      simp only [parts_sharedList] at hlt
      simp only [shared.sizeOf_spec, list.sizeOf_spec]
      omega
    | map entries =>
      have hlt := sizeOf_lt_of_mem_values h
      simp only [shared.sizeOf_spec, map.sizeOf_spec]
      omega
    | _ => cases h
  | _ => cases h

/-- What a walk carries from the parts of a value to the value holds of all values. -/
@[elab_as_elim]
theorem walk_induction {motive : Value → Prop} (step : ∀ v : Value, (∀ part ∈ v.parts, motive part) → motive v)
    (v : Value) : motive v :=
  step v fun part _ => walk_induction step part
termination_by sizeOf v
decreasing_by exact sizeOf_lt_of_mem_parts ‹_›

theorem map_entries_congr {f g : Value → Value} {entries : List (String × Value)}
    (h : ∀ part ∈ entries.map (·.2), f part = g part) :
    entries.map (fun (k, v) => (k, f v)) = entries.map fun (k, v) => (k, g v) :=
  List.map_congr_left fun e he => Prod.ext rfl (h e.2 (List.mem_map_of_mem he))

theorem datesAsText_datesAsText (v : Value) : v.datesAsText.datesAsText = v.datesAsText := by
  induction v using walk_induction with
  | step v ih =>
    cases v with
    | list items => simpa [datesAsText] using ih
    | map entries => simpa [datesAsText] using map_entries_congr ih
    | shared place v =>
      cases v with
      | list items => simpa [datesAsText] using ih
      | map entries => simpa [datesAsText] using map_entries_congr ih
      | _ => rfl
    | _ => rfl

theorem linksAsText_linksAsText (v : Value) : v.linksAsText.linksAsText = v.linksAsText := by
  induction v using walk_induction with
  | step v ih =>
    cases v with
    | str s => rw [linksAsText, linksAsText, unwrap_eq_self_iff.2 (isLink_unwrap s)]
    | list items => simpa [linksAsText] using ih
    | map entries => simpa [linksAsText] using map_entries_congr ih
    | shared place v =>
      cases v with
      | list items => simpa [linksAsText] using ih
      | map entries => simpa [linksAsText] using map_entries_congr ih
      | _ => rfl
    | _ => rfl

/-- The text of a day is no link, and the target of a link is no day. -/
theorem linksAsText_datesAsText (v : Value) : v.datesAsText.linksAsText = v.linksAsText.datesAsText := by
  have hday : ∀ d : Date, (str d.text).linksAsText = str d.text := fun d => by
    rw [linksAsText, unwrap_eq_self_iff.2 (isLink_dateText d)]
  induction v using walk_induction with
  | step v ih =>
    cases v with
    | date d => exact hday d
    | datetime t => exact hday t.date
    | list items => simpa [datesAsText, linksAsText] using ih
    | map entries => simpa [datesAsText, linksAsText] using map_entries_congr ih
    | shared place v =>
      cases v with
      | date d => exact hday d
      | datetime t => exact hday t.date
      | list items => simpa [datesAsText, linksAsText] using ih
      | map entries => simpa [datesAsText, linksAsText] using map_entries_congr ih
      | _ => rfl
    | _ => rfl

@[simp] theorem normal_str (s : String) : (str s).normal = str (unwrap s) := rfl

@[simp] theorem normal_list (items : List Value) : (list items).normal = list (items.map normal) := by
  simp [normal, datesAsText, linksAsText, Function.comp_def]

theorem normalEntries_eq_map (m : Mapping) : normalEntries m = m.map fun (k, v) => (k, v.normal) := by
  simp [normalEntries, normal, Function.comp_def]

@[simp] theorem normal_map (entries : List (String × Value)) : (map entries).normal = map (normalEntries entries) := by
  simp [normal, datesAsText, linksAsText, normalEntries]

@[simp] theorem normal_sharedList (place : Place) (items : List Value) :
    (shared place (list items)).normal = list (items.map normal) := by
  simp [normal, datesAsText, linksAsText, Function.comp_def]

@[simp] theorem normal_sharedMap (place : Place) (entries : List (String × Value)) :
    (shared place (map entries)).normal = map (normalEntries entries) := by
  simp [normal, datesAsText, linksAsText, normalEntries]

/-- The value is in normal form. -/
def IsNormal (v : Value) : Prop := v.normal = v

theorem isNormal_str {s : String} : (str s).IsNormal ↔ isLink s = false := by
  rw [IsNormal, normal_str, str.injEq, unwrap_eq_self_iff]

theorem isNormal_list {items : List Value} : (list items).IsNormal ↔ ∀ v ∈ items, v.IsNormal := by
  rw [IsNormal, normal_list, list.injEq, map_eq_self_iff]
  rfl

theorem isNormal_map {entries : List (String × Value)} : (map entries).IsNormal ↔ ∀ e ∈ entries, e.2.IsNormal := by
  rw [IsNormal, normal_map, map.injEq, normalEntries_eq_map, map_eq_self_iff]
  exact forall₂_congr fun e _ => ⟨fun h => (Prod.ext_iff.1 h).2, fun h => Prod.ext rfl h⟩

/-- One step is enough. -/
theorem isNormal_normal (v : Value) : v.normal.IsNormal :=
  calc v.normal.datesAsText.linksAsText
      = v.datesAsText.datesAsText.linksAsText.linksAsText := by rw [normal, ← linksAsText_datesAsText v.datesAsText]
    _ = v.normal := by rw [datesAsText_datesAsText, linksAsText_linksAsText, normal]

theorem entriesAreNormal_normal (entries : List (String × Value)) : ∀ e ∈ normalEntries entries, e.2.IsNormal := by
  rw [normalEntries_eq_map, List.forall_mem_map]
  exact fun e _ => isNormal_normal e.2

end Value

end NoteVault
