import NoteVault.Proofs.Yaml.Node.Document
import NoteVault.Proofs.Yaml.Node.Placed
import NoteVault.Proofs.Yaml.Written

/-!
One text is written for a value and for the one that is read back for it: its objects have moved to the places of their
anchors, and as these are different places, the same objects occur several times, in the same order.
-/
namespace NoteVault

namespace List

theorem idxOf_map_of_inj {α β : Type} [BEq α] [LawfulBEq α] [BEq β] [LawfulBEq β] {f : α → β} {xs : List α} {x : α}
    (h : ∀ y ∈ xs, f y = f x → y = x) : (xs.map f).idxOf (f x) = xs.idxOf x := by
  induction xs with
  | nil => rfl
  | cons y xs ih =>
    rw [List.map_cons, List.idxOf_cons, List.idxOf_cons, ih fun z hz => h z (List.mem_cons_of_mem _ hz)]
    by_cases hyx : y = x
    · simp [hyx]
    · rw [beq_eq_false_iff_ne.2 hyx, beq_eq_false_iff_ne.2 fun hf => hyx (h y List.mem_cons_self hf)]

end List

namespace Yaml

open Value (isSetObject)

variable {repeated written : List Value} {ρ : Nat → Nat}

theorem placed_of_mem {place : Place} {v : Value} (h : .shared place v ∈ repeated) :
    placed repeated ρ (.shared place v) = .shared ⟨ρ (repeated.idxOf (.shared place v) + 1), 0⟩ v := by
  rw [placed, if_pos (List.contains_iff_mem.2 h)]

theorem placed_of_not_mem {place : Place} {v : Value} (h : .shared place v ∉ repeated) :
    placed repeated ρ (.shared place v) = v := by
  rw [placed, if_neg (by simpa using h)]

theorem exists_of_isSetObject {o : Value} (h : isSetObject o = true) :
    ∃ place members, o = .shared place (.set members) := by
  unfold isSetObject at h
  split at h
  · exact ⟨_, _, rfl⟩
  · cases h

/-- Different objects are read back at different places. -/
theorem placed_inj (hρ : ρ.Injective) (hsets : OnlySets repeated) {o p : Value} (ho : o ∈ repeated) (hp : p ∈ repeated)
    (h : placed repeated ρ o = placed repeated ρ p) : o = p := by
  obtain ⟨place, members, rfl⟩ := exists_of_isSetObject (hsets o ho)
  obtain ⟨place', members', rfl⟩ := exists_of_isSetObject (hsets p hp)
  rw [placed_of_mem ho, placed_of_mem hp] at h
  have hindex := hρ (congrArg Place.position (Value.shared.inj h).1)
  exact (List.idxOf_inj ho).1 (Nat.succ.inj hindex)

theorem mem_map_placed (hρ : ρ.Injective) (hsets : OnlySets repeated) {o : Value} (ho : o ∈ repeated) {xs : List Value}
    (hxs : ∀ p ∈ xs, p ∈ repeated) : placed repeated ρ o ∈ xs.map (placed repeated ρ) ↔ o ∈ xs := by
  refine ⟨fun h => ?_, List.mem_map_of_mem⟩
  obtain ⟨p, hp, hplaced⟩ := List.mem_map.1 h
  rwa [← placed_inj hρ hsets (hxs p hp) ho hplaced]

/-- The objects that are counted where all of them have moved, and those that occur once are objects no more. -/
def Content.Census.moved (repeated : List Value) (ρ : Nat → Nat) (c : Content.Census) : Content.Census :=
  ⟨(c.met.filter (repeated.contains ·)).map (placed repeated ρ), c.repeated.map (placed repeated ρ)⟩

theorem census_object (hρ : ρ.Injective) (hsets : OnlySets repeated) {place : Place} {members : List String}
    {c : Content.Census} (h : (Content.census c (.shared place (.set members))).repeated ⊆ repeated) :
    Content.census (c.moved repeated ρ) (placed repeated ρ (.shared place (.set members))) =
      (Content.census c (.shared place (.set members))).moved repeated ρ := by
  by_cases ho : .shared place (.set members) ∈ repeated
  · have hmet : placed repeated ρ (.shared place (.set members)) ∈ (c.moved repeated ρ).met ↔
        .shared place (.set members) ∈ c.met := by
      rw [Content.Census.moved, mem_map_placed hρ hsets ho (by simp)]
      simp [ho]
    have hrepeated : placed repeated ρ (.shared place (.set members)) ∈ (c.moved repeated ρ).repeated ↔
        .shared place (.set members) ∈ c.repeated :=
      mem_map_placed hρ hsets ho fun p hp => h (repeated_subset_census _ c hp)
    rw [census_setObject (by rw [placed_of_mem ho]; rfl), census_setObject rfl]
    simp only [List.contains_iff_mem, hmet, hrepeated]
    split
    · split
      · rfl
      · simp [Content.Census.moved]
    · simp [Content.Census.moved, ho]
  · rw [(census_once (v := .set members) rfl fun hmem => ho (h hmem)).2, placed_of_not_mem ho]
    simp [Content.census, Content.Census.moved, ho]

mutual

/-- The same objects are counted in the value that is read back. -/
theorem census_placed (hρ : ρ.Injective) (hsets : OnlySets repeated) (v : Value) (c : Content.Census) (hv : ReadsBack v)
    (h : (Content.census c v).repeated ⊆ repeated) :
    Content.census (c.moved repeated ρ) (placed repeated ρ v) = (Content.census c v).moved repeated ρ := by
  cases v with
  | tuple _ => exact absurd hv id
  | list items => exact censusList_placed hρ hsets items c hv h
  | map entries => exact censusEntries_placed hρ hsets entries c hv.2 h
  | shared place v =>
    obtain ⟨members, rfl, -⟩ := hv
    exact census_object hρ hsets h
  | _ => rfl

theorem censusList_placed (hρ : ρ.Injective) (hsets : OnlySets repeated) (items : List Value) (c : Content.Census)
    (hitems : ItemsReadBack items) (h : (Content.censusList c items).repeated ⊆ repeated) :
    Content.censusList (c.moved repeated ρ) (placedItems repeated ρ items) =
      (Content.censusList c items).moved repeated ρ := by
  cases items with
  | nil => rfl
  | cons v rest =>
    rw [placedItems, Content.censusList, census_placed hρ hsets v c hitems.1
      (List.Subset.trans (repeated_subset_censusList rest _) h), censusList_placed hρ hsets rest _ hitems.2 h]
    rfl

theorem censusEntries_placed (hρ : ρ.Injective) (hsets : OnlySets repeated) (entries : List (String × Value))
    (c : Content.Census) (hentries : EntriesReadBack entries)
    (h : (Content.censusEntries c entries).repeated ⊆ repeated) :
    Content.censusEntries (c.moved repeated ρ) (placedEntries repeated ρ entries) =
      (Content.censusEntries c entries).moved repeated ρ := by
  cases entries with
  | nil => rfl
  | cons e rest =>
    rw [placedEntries, Content.censusEntries, census_placed hρ hsets e.2 c hentries.2.1
      (List.Subset.trans (repeated_subset_censusEntries rest _) h), censusEntries_placed hρ hsets rest _ hentries.2.2 h]
    rfl

end

/-- An object that occurs several times gets an anchor, and is an alias once it has been written. -/
theorem ofValue_repeated {place : Place} {members : List String} (h : .shared place (.set members) ∈ repeated) :
    Content.ofValue repeated written (.shared place (.set members)) =
      if .shared place (.set members) ∈ written then
        (.aliasOf (repeated.idxOf (.shared place (.set members)) + 1), written)
      else (.mapping (some (repeated.idxOf (.shared place (.set members)) + 1)) .set
        (members.map fun k => (k, Node.Reader.nullContent)), .shared place (.set members) :: written) := by
  have hnamed : (repeated.contains (.shared place (.set members)) && !Content.isUnnamed (.set members)) = true := by
    rw [List.contains_iff_mem.2 h]
    rfl
  rw [Content.ofValue, if_pos hnamed]
  by_cases hwritten : .shared place (.set members) ∈ written
  · rw [if_pos hwritten, if_pos (List.contains_iff_mem.2 hwritten)]
  · rw [if_neg hwritten, if_neg (by simpa using hwritten)]
    rfl

theorem ofValue_object (hρ : ρ.Injective) (hsets : OnlySets repeated) (place : Place) (members : List String)
    (hw : AreNamed repeated written) :
    Content.ofValue (repeated.map (placed repeated ρ)) (written.map (placed repeated ρ))
        (placed repeated ρ (.shared place (.set members))) =
      ((Content.ofValue repeated written (.shared place (.set members))).1,
        (Content.ofValue repeated written (.shared place (.set members))).2.map (placed repeated ρ)) := by
  by_cases ho : .shared place (.set members) ∈ repeated
  · have hmem := List.mem_map_of_mem (f := placed repeated ρ) ho
    have hwritten := mem_map_placed hρ hsets ho hw.within
    have hindex := List.idxOf_map_of_inj fun p hp => placed_inj hρ hsets hp ho
    have hplaced : placed repeated ρ (.shared place (.set members)) = _ := placed_of_mem ho
    rw [hplaced] at hmem hwritten hindex ⊢
    rw [ofValue_repeated hmem, ofValue_repeated ho]
    simp only [hwritten, hindex]
    split
    · rfl
    · rw [List.map_cons, hplaced]
  · rw [placed_of_not_mem ho]
    simp [Content.ofValue, ho]

mutual

/-- The same is written for the value that is read back. -/
theorem ofValue_placed (hρ : ρ.Injective) (hsets : OnlySets repeated) (v : Value) {written : List Value}
    (hv : ReadsBack v)
    (hw : AreNamed repeated written) :
    Content.ofValue (repeated.map (placed repeated ρ)) (written.map (placed repeated ρ)) (placed repeated ρ v) =
      ((Content.ofValue repeated written v).1, (Content.ofValue repeated written v).2.map (placed repeated ρ)) := by
  cases v with
  | tuple _ => exact absurd hv id
  | list items => rw [placed, Content.ofValue, Content.ofValue, ofList_placed hρ hsets items hv hw]
  | map entries => rw [placed, Content.ofValue, Content.ofValue, ofEntries_placed hρ hsets entries hv.2 hw]
  | shared place v =>
    obtain ⟨members, rfl, -⟩ := hv
    exact ofValue_object hρ hsets place members hw
  | _ => rfl

theorem ofList_placed (hρ : ρ.Injective) (hsets : OnlySets repeated) (items : List Value) {written : List Value}
    (hitems : ItemsReadBack items) (hw : AreNamed repeated written) :
    Content.ofList (repeated.map (placed repeated ρ)) (written.map (placed repeated ρ)) (placedItems repeated ρ items) =
      ((Content.ofList repeated written items).1,
      (Content.ofList repeated written items).2.map (placed repeated ρ)) := by
  cases items with
  | nil => rfl
  | cons v rest =>
    rw [placedItems, Content.ofList, Content.ofList, ofValue_placed hρ hsets v hitems.1 hw]
    simp only [ofList_placed hρ hsets rest hitems.2 (names_ofValue v hitems.1 hw).toAreNamed]

theorem ofEntries_placed (hρ : ρ.Injective) (hsets : OnlySets repeated) (entries : List (String × Value))
    {written : List Value} (hentries : EntriesReadBack entries) (hw : AreNamed repeated written) :
    Content.ofEntries (repeated.map (placed repeated ρ)) (written.map (placed repeated ρ))
        (placedEntries repeated ρ entries) =
      ((Content.ofEntries repeated written entries).1,
        (Content.ofEntries repeated written entries).2.map (placed repeated ρ)) := by
  cases entries with
  | nil => rfl
  | cons e rest =>
    rw [placedEntries, Content.ofEntries, Content.ofEntries, ofValue_placed hρ hsets e.2 hentries.2.1 hw]
    simp only [ofEntries_placed hρ hsets rest hentries.2.2 (names_ofValue e.2 hentries.2.1 hw).toAreNamed]

end

/-- The same is written for front matter and for what is read back for it. -/
theorem ofMapping_placed (hρ : ρ.Injective) {m : Mapping} (hsets : OnlySets (repeatedIn m)) (hm : EntriesReadBack m) :
    Content.ofMapping (placedEntries (repeatedIn m) ρ m) = Content.ofMapping m := by
  have hrepeated : repeatedIn (placedEntries (repeatedIn m) ρ m) = (repeatedIn m).map (placed (repeatedIn m) ρ) :=
    congrArg (·.repeated) (censusEntries_placed hρ hsets m ⟨[], []⟩ hm fun _ h => h)
  rw [Content.ofMapping, ← repeatedIn, hrepeated]
  exact congrArg (·.1) (ofEntries_placed hρ hsets m hm ⟨.nil, by simp⟩)

end Yaml

end NoteVault
