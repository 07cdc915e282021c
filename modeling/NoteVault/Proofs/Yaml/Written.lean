import NoteVault.Proofs.Value.Normal
import NoteVault.Proofs.Yaml.Node.Value
import NoteVault.Repair.Strategy
import NoteVault.Value.Digits

/-!
What the text of a value shows of it. Tuples are written as lists, and where no object but sets occurs several times,
one text is written for a value and for what its text shows.
-/
namespace NoteVault

namespace Value

/-- The value is a set that is an object. -/
def isSetObject : Value → Bool
  | shared _ (set _) => true
  | _ => false

mutual

/-- The value with lists for tuples, and without objects but sets. -/
def asWritten : Value → Value
  | list items => list (asWrittenItems items)
  | tuple items => list (asWrittenItems items)
  | map entries => map (asWrittenEntries entries)
  | shared place (set members) => shared place (set members)
  | shared _ v => asWritten v
  | v => v

def asWrittenItems : List Value → List Value
  | [] => []
  | v :: rest => asWritten v :: asWrittenItems rest

def asWrittenEntries : List (String × Value) → List (String × Value)
  | [] => []
  | (k, v) :: rest => (k, asWritten v) :: asWrittenEntries rest

end

theorem asWritten_shared {place : Place} {v : Value} (h : (shared place v).isSetObject = false) :
    (shared place v).asWritten = v.asWritten := by
  cases v with
  | set members => cases h
  | _ => rfl

theorem asWritten_setObject {v : Value} (h : v.isSetObject = true) : v.asWritten = v := by
  unfold isSetObject at h
  split at h
  · rfl
  · cases h

theorem asWrittenItems_eq_map (items : List Value) : asWrittenItems items = items.map asWritten := by
  induction items with
  | nil => rfl
  | cons v rest ih => rw [asWrittenItems, ih, List.map_cons]

theorem asWrittenEntries_eq_map (entries : List (String × Value)) :
    asWrittenEntries entries = entries.map fun (k, v) => (k, asWritten v) := by
  induction entries with
  | nil => rfl
  | cons e rest ih => rw [asWrittenEntries, ih, List.map_cons]

mutual

theorem hasLongInteger_asWritten (v : Value) : v.asWritten.hasLongInteger = v.hasLongInteger := by
  cases v with
  | list items | tuple items => exact anyLongInteger_asWritten items
  | map entries => exact entriesHaveLongInteger_asWritten entries
  | shared place v =>
    by_cases hset : (shared place v).isSetObject = true
    · rw [asWritten_setObject hset]
    · rw [asWritten_shared (Bool.not_eq_true _ ▸ hset), hasLongInteger]
      exact hasLongInteger_asWritten v
  | _ => rfl

theorem anyLongInteger_asWritten (items : List Value) :
    anyLongInteger (asWrittenItems items) = anyLongInteger items := by
  cases items with
  | nil => rfl
  | cons v rest =>
    rw [asWrittenItems, anyLongInteger, anyLongInteger, hasLongInteger_asWritten v, anyLongInteger_asWritten rest]

theorem entriesHaveLongInteger_asWritten (entries : List (String × Value)) :
    entriesHaveLongInteger (asWrittenEntries entries) = entriesHaveLongInteger entries := by
  cases entries with
  | nil => rfl
  | cons e rest =>
    rw [asWrittenEntries, entriesHaveLongInteger, entriesHaveLongInteger, hasLongInteger_asWritten e.2,
      entriesHaveLongInteger_asWritten rest]

end

theorem asWritten_asLink_str (s : String) : (str s).asLink.asWritten = (str s).asLink := by
  rw [asLink]
  split <;> rfl

/-- What a field of front matter may hold: no tuple and no object but sets, and no object stands for a text in
a list. -/
def IsFieldValue : Value → Prop
  | list items => ∀ v ∈ items, ∀ s, v.asWritten = str s → v = str s
  | tuple _ => False
  | shared _ (set _) => True
  | shared _ _ => False
  | _ => True

theorem IsFieldValue.eq_str {v : Value} (h : v.IsFieldValue) {s : String} (hs : v.asWritten = str s) : v = str s := by
  cases v with
  | shared place v =>
    cases v with
    | set members => cases hs
    | _ => exact absurd h id
  | tuple _ => exact absurd h id
  | str t => exact hs
  | _ => cases hs

theorem asLink_of_ne_str {v : Value} (h : ∀ s, v ≠ str s) : v.asLink = v := by
  cases v with
  | str s => exact absurd rfl (h s)
  | _ => rfl

theorem asLink_asWritten {v : Value} (h : ∀ s, v.asWritten = str s → v = str s) :
    v.asWritten.asLink = v.asLink.asWritten := by
  by_cases hv : ∃ s, v = str s
  · obtain ⟨s, rfl⟩ := hv
    exact (asWritten_asLink_str s).symm
  · rw [not_exists] at hv
    rw [asLink_of_ne_str fun s hs => hv s (h s hs), asLink_of_ne_str hv]

theorem IsFieldValue.asLinks_asWritten {v : Value} (h : v.IsFieldValue) :
    v.asWritten.asLinks = v.asLinks.asWritten := by
  cases v with
  | list items =>
    simp only [asWritten, asLinks, asWrittenItems_eq_map, List.map_map]
    exact congrArg list (List.map_congr_left fun v hv => asLink_asWritten (h v hv))
  | shared place v =>
    cases v with
    | set members => rfl
    | _ => exact absurd h id
  | tuple _ => exact absurd h id
  | str s => exact asLink_asWritten (v := str s) fun _ hs => hs
  | _ => rfl

theorem isFieldValue_listed {v : Value} (h : v.IsFieldValue) : (Mapping.listed v).IsFieldValue := by
  cases v with
  | str s => exact List.forall_mem_singleton.2 fun _ hs => hs
  | _ => exact h

end Value

namespace Yaml

open Value (asWritten asWrittenItems asWrittenEntries isSetObject)

/-- Only sets are objects that occur several times. -/
def OnlySets (repeated : List Value) : Prop := ∀ o ∈ repeated, isSetObject o = true

variable {repeated : List Value} {ρ : Nat → Nat}

theorem OnlySets.not_mem (h : OnlySets repeated) {o : Value} (ho : isSetObject o = false) : o ∉ repeated :=
  fun hmem => absurd (h o hmem) (by simp [ho])

mutual

/-- The same is written for a value and for what its text shows. -/
theorem ofValue_asWritten (v : Value) (h : OnlySets repeated) (written : List Value) :
    Content.ofValue repeated written v.asWritten = Content.ofValue repeated written v := by
  cases v with
  | list items | tuple items => rw [asWritten, Content.ofValue, Content.ofValue, ofList_asWritten items h]
  | map entries => rw [asWritten, Content.ofValue, Content.ofValue, ofEntries_asWritten entries h]
  | shared place v =>
    by_cases hset : isSetObject (.shared place v) = true
    · rw [Value.asWritten_setObject hset]
    · rw [Bool.not_eq_true] at hset
      rw [Value.asWritten_shared hset, ofValue_asWritten v h, Content.ofValue]
      simp [h.not_mem hset]
  | _ => rfl

theorem ofList_asWritten (items : List Value) (h : OnlySets repeated) (written : List Value) :
    Content.ofList repeated written (asWrittenItems items) = Content.ofList repeated written items := by
  cases items with
  | nil => rfl
  | cons v rest =>
    rw [asWrittenItems, Content.ofList, Content.ofList, ofValue_asWritten v h]
    simp only [ofList_asWritten rest h]

theorem ofEntries_asWritten (entries : List (String × Value)) (h : OnlySets repeated) (written : List Value) :
    Content.ofEntries repeated written (asWrittenEntries entries) = Content.ofEntries repeated written entries := by
  cases entries with
  | nil => rfl
  | cons e rest =>
    rw [asWrittenEntries, Content.ofEntries, Content.ofEntries, ofValue_asWritten e.2 h]
    simp only [ofEntries_asWritten rest h]

end

mutual

/-- What occurs several times stays so when more is counted. -/
theorem repeated_subset_census (v : Value) (c : Content.Census) : c.repeated ⊆ (Content.census c v).repeated := by
  cases v with
  | list items | tuple items => exact repeated_subset_censusList items c
  | map entries => exact repeated_subset_censusEntries entries c
  | shared place v =>
    rw [Content.census]
    split
    · exact fun _ h => h
    · split
      · split
        · exact fun _ h => h
        · exact List.subset_append_left _ _
      · exact repeated_subset_census v { c with met := .shared place v :: c.met }
  | _ => exact fun _ h => h

theorem repeated_subset_censusList (items : List Value) (c : Content.Census) :
    c.repeated ⊆ (Content.censusList c items).repeated := by
  cases items with
  | nil => exact fun _ h => h
  | cons v rest => exact List.Subset.trans (repeated_subset_census v c) (repeated_subset_censusList rest _)

theorem repeated_subset_censusEntries (entries : List (String × Value)) (c : Content.Census) :
    c.repeated ⊆ (Content.censusEntries c entries).repeated := by
  cases entries with
  | nil => exact fun _ h => h
  | cons e rest => exact List.Subset.trans (repeated_subset_census e.2 c) (repeated_subset_censusEntries rest _)

end

/-- An object that occurs once has not been met before. -/
theorem census_once {c : Content.Census} {place : Place} {v : Value} (hnamed : Content.isUnnamed v = false)
    (h : Value.shared place v ∉ (Content.census c (.shared place v)).repeated) :
    Value.shared place v ∉ c.met ∧
      Content.census c (.shared place v) = Content.census { c with met := .shared place v :: c.met } v := by
  rw [Content.census, hnamed, if_neg Bool.false_ne_true] at h ⊢
  split at h
  next hmet =>
    split at h
    next hrepeated => exact absurd (List.contains_iff_mem.1 hrepeated) h
    next => exact absurd (List.mem_append_right _ List.mem_cons_self) h
  next hmet => exact ⟨by simpa using hmet, if_neg hmet⟩

theorem census_setObject {o : Value} (h : isSetObject o = true) (c : Content.Census) :
    Content.census c o =
      if c.met.contains o then if c.repeated.contains o then c else { c with repeated := c.repeated ++ [o] }
      else { c with met := o :: c.met } := by
  unfold isSetObject at h
  split at h
  · rw [Content.census]
    rfl
  · cases h

/-- The objects that are counted when only sets are objects. -/
def Content.Census.sets (c : Content.Census) : Content.Census := ⟨c.met.filter isSetObject, c.repeated⟩

mutual

theorem census_asWritten (v : Value) (c : Content.Census) (h : OnlySets (Content.census c v).repeated) :
    Content.census c.sets v.asWritten = (Content.census c v).sets := by
  cases v with
  | list items | tuple items => exact censusList_asWritten items c h
  | map entries => exact censusEntries_asWritten entries c h
  | shared place v =>
    by_cases hset : isSetObject (.shared place v) = true
    · rw [Value.asWritten_setObject hset, census_setObject hset, census_setObject hset]
      simp only [Content.Census.sets, List.contains_eq_mem, List.mem_filter, hset, and_true]
      split
      · split <;> rfl
      · simp [hset]
    · rw [Bool.not_eq_true] at hset
      rw [Value.asWritten_shared hset]
      cases hnamed : Content.isUnnamed v with
      | true =>
        unfold Content.isUnnamed at hnamed
        split at hnamed
        · rfl
        · cases hnamed
      | false =>
        obtain ⟨-, hcensus⟩ := census_once hnamed (h.not_mem hset)
        rw [hcensus] at h ⊢
        rw [← census_asWritten v _ h]
        simp [Content.Census.sets, hset]
  | _ => rfl

theorem censusList_asWritten (items : List Value) (c : Content.Census)
    (h : OnlySets (Content.censusList c items).repeated) :
    Content.censusList c.sets (asWrittenItems items) = (Content.censusList c items).sets := by
  cases items with
  | nil => rfl
  | cons v rest =>
    rw [asWrittenItems, Content.censusList,
      census_asWritten v c fun o ho => h o (repeated_subset_censusList rest _ ho), censusList_asWritten rest _ h]
    rfl

theorem censusEntries_asWritten (entries : List (String × Value)) (c : Content.Census)
    (h : OnlySets (Content.censusEntries c entries).repeated) :
    Content.censusEntries c.sets (asWrittenEntries entries) = (Content.censusEntries c entries).sets := by
  cases entries with
  | nil => rfl
  | cons e rest =>
    rw [asWrittenEntries, Content.censusEntries,
      census_asWritten e.2 c fun o ho => h o (repeated_subset_censusEntries rest _ ho),
        censusEntries_asWritten rest _ h]
    rfl

end

/-- The objects that occur several times in a mapping. -/
def repeatedIn (m : Mapping) : List Value := (Content.censusEntries ⟨[], []⟩ m).repeated

variable {m : Mapping}

theorem repeatedIn_asWritten (h : OnlySets (repeatedIn m)) : repeatedIn (asWrittenEntries m) = repeatedIn m :=
  congrArg (·.repeated) (censusEntries_asWritten m ⟨[], []⟩ h)

theorem ofMapping_asWritten (h : OnlySets (repeatedIn m)) :
    Content.ofMapping (asWrittenEntries m) = Content.ofMapping m := by
  rw [Content.ofMapping, Content.ofMapping, ← repeatedIn, ← repeatedIn, repeatedIn_asWritten h, ofEntries_asWritten m h]

end Yaml

end NoteVault
