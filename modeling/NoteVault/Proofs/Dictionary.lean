import Mathlib.Tactic
import NoteVault.Dictionary
import NoteVault.Text.Order

/-!
Look-up in dictionaries, and dictionaries that are built entry by entry: a key stands where it was first
given, with the value that it was last given. Items that are pushed are grouped by their keys.
-/
namespace NoteVault.Dictionary

variable {α : Type}

theorem get?_cons (k : String) (v : α) (m : Dictionary α) (key : String) :
    get? ((k, v) :: m) key = if key = k then some v else get? m key := by
  by_cases hk : key = k
  · simp [get?, hk]
  · rw [get?, List.lookup_cons, beq_eq_false_iff_ne.2 hk, if_neg hk]
    rfl

theorem get?_eq_none_iff {m : Dictionary α} {key : String} : get? m key = none ↔ key ∉ keys m := by
  simp only [get?, List.lookup_eq_none_iff, keys, List.mem_map, not_exists, not_and, bne_iff_ne]
  exact ⟨fun h e he hk => h e he hk.symm, fun h e he hk => h e he hk.symm⟩

theorem mem_keys_iff {m : Dictionary α} {key : String} : key ∈ keys m ↔ ∃ value, get? m key = some value := by
  rw [← not_iff_not, ← get?_eq_none_iff, ← Option.ne_none_iff_exists', not_not]

theorem has_iff {m : Dictionary α} {key : String} : has m key = true ↔ key ∈ keys m := by
  simp [has, keys]

theorem mem_of_get? {m : Dictionary α} {key : String} {value : α} (h : get? m key = some value) :
    (key, value) ∈ m := by
  induction m with
  | nil => exact absurd h (by simp [get?])
  | cons e m ih =>
    rw [get?_cons] at h
    split at h
    next hk => exact List.mem_cons.2 (.inl (Prod.ext hk (Option.some.inj h).symm))
    next => exact List.mem_cons_of_mem _ (ih h)

theorem get?_of_mem {m : Dictionary α} (hm : (keys m).Nodup) {key : String} {value : α} (h : (key, value) ∈ m) :
    get? m key = some value := by
  induction m with
  | nil => cases h
  | cons e m ih =>
    obtain ⟨hk, hm⟩ := List.nodup_cons.1 hm
    rw [get?_cons]
    obtain rfl | hrest := List.mem_cons.1 h
    · exact if_pos rfl
    · rw [if_neg fun he => hk (List.mem_map.2 ⟨(key, value), hrest, he⟩), ih hm hrest]

theorem get?_perm {m n : Dictionary α} (h : m.Perm n) (hm : (keys m).Nodup) (key : String) :
    get? m key = get? n key := by
  have hn : (keys n).Nodup := (h.map _).nodup_iff.1 hm
  cases hkey : get? n key with
  | none => rwa [get?_eq_none_iff, keys, (h.map (·.1)).mem_iff, ← keys, ← get?_eq_none_iff]
  | some value => exact get?_of_mem hm (h.mem_iff.2 (mem_of_get? hkey))

theorem get?_append (m n : Dictionary α) (key : String) : get? (m ++ n) key = (get? m key).or (get? n key) :=
  List.lookup_append

/-- Entries that are kept or dropped by their keys. -/
theorem get?_filter (p : String → Bool) (m : Dictionary α) (key : String) :
    get? (m.filter fun e => p e.1) key = if p key then get? m key else none := by
  induction m with
  | nil => simp [get?]
  | cons e m ih =>
    rw [List.filter_cons, get?_cons]
    split
    next hp =>
      rw [get?_cons, ih]
      split <;> simp_all
    next hp =>
      rw [ih]
      split
      next hkept =>
        have hne : key ≠ e.1 := by
          rintro rfl
          exact hp hkept
        rw [if_neg hne]
      next => rfl

theorem keys_filter (p : String → Bool) (m : Dictionary α) : keys (m.filter fun e => p e.1) = (keys m).filter p := by
  rw [keys, keys, List.filter_map]
  rfl

theorem keys_erase (m : Dictionary α) (key : String) : keys (erase m key) = (keys m).filter (· != key) :=
  keys_filter (· != key) m

theorem get?_erase (m : Dictionary α) {key other : String} (h : other ≠ key) :
    get? (erase m key) other = get? m other :=
  (get?_filter (· != key) m other).trans (if_pos (by simpa using h))

theorem get?_map {β : Type} (g : String → α → β) (m : Dictionary α) (key : String) :
    get? (m.map fun (k, v) => (k, g k v)) key = (get? m key).map (g key) := by
  induction m with
  | nil => rfl
  | cons e m ih =>
    rw [List.map_cons, get?_cons, get?_cons, ih]
    split
    next hk => rw [hk]; rfl
    next => rfl

theorem keys_map {β : Type} (g : String → α → β) (m : Dictionary α) :
    keys (m.map fun (k, v) => (k, g k v)) = keys m := by
  simp [keys, Function.comp_def]

/-- The entries of some keys, in the order of the keys. -/
def select (m : Dictionary α) (names : List String) : Dictionary α :=
  names.filterMap fun key => (get? m key).map (key, ·)

theorem get?_select (m : Dictionary α) (names : List String) (key : String) :
    get? (select m names) key = if key ∈ names then get? m key else none := by
  induction names with
  | nil => simp [select, get?]
  | cons name names ih =>
    have hcons : select m (name :: names) = ((get? m name).map (name, ·)).toList ++ select m names := by
      cases h : get? m name <;> simp [select, h]
    rw [hcons, get?_append, ih]
    by_cases hname : key = name
    · subst hname
      cases h : get? m key <;> simp [get?]
    · have hnone : get? ((get? m name).map (name, ·)).toList key = none := by
        rw [get?_eq_none_iff]
        cases get? m name <;> simp [keys, hname]
      rw [hnone, Option.none_or]
      simp [hname]

theorem mem_of_mem_select {m : Dictionary α} {names : List String} {e : String × α} (h : e ∈ select m names) :
    e ∈ m := by
  obtain ⟨name, -, he⟩ := List.mem_filterMap.1 h
  obtain ⟨v, hv, rfl⟩ := Option.map_eq_some_iff.1 he
  exact mem_of_get? hv

theorem keys_select (m : Dictionary α) (names : List String) :
    keys (select m names) = names.filter fun key => key ∈ keys m := by
  induction names with
  | nil => rfl
  | cons name names ih =>
    cases h : get? m name with
    | none =>
      have hnot := get?_eq_none_iff.1 h
      simpa [select, h, hnot] using ih
    | some v =>
      have hmem : name ∈ keys m := List.mem_map_of_mem (f := (·.1)) (mem_of_get? h)
      rw [List.filter_cons_of_pos (by simpa using hmem), ← ih]
      simp [select, h, keys]

theorem select_keys {m : Dictionary α} (hm : (keys m).Nodup) : select m (keys m) = m := by
  have hself : ∀ e ∈ m, (get? m e.1).map (e.1, ·) = some e := fun e he => by rw [get?_of_mem hm he]; rfl
  rw [select, keys, List.filterMap_map]
  exact (List.filterMap_congr hself).trans List.filterMap_some

/-- Entries that are kept by their keys are selected with the others, and kept afterwards. -/
theorem select_filter (m : Dictionary α) (p : String → Bool) (names : List String) :
    select (m.filter fun e => p e.1) names = (select m names).filter fun e => p e.1 := by
  induction names with
  | nil => rfl
  | cons name names ih =>
    simp only [select] at ih ⊢
    rw [List.filterMap_cons, List.filterMap_cons, get?_filter, ih]
    cases get? m name <;> cases hp : p name <;> simp [hp]

theorem select_filter_names (m : Dictionary α) (p : String → Bool) (names : List String) :
    select m (names.filter p) = (select m names).filter fun e => p e.1 := by
  induction names with
  | nil => rfl
  | cons name names ih =>
    simp only [select] at ih ⊢
    rw [List.filter_cons, List.filterMap_cons]
    cases hget : get? m name <;> cases hp : p name <;> simp [hget, hp, ih]

theorem select_congr {m n : Dictionary α} (h : ∀ key, get? m key = get? n key) (names : List String) :
    select m names = select n names := by
  rw [select, select]
  exact List.filterMap_congr fun key _ => by rw [h key]

/-- A dictionary is the order of its keys and what they hold. -/
theorem ext_keys {m n : Dictionary α} (hm : (keys m).Nodup) (hkeys : keys m = keys n)
    (h : ∀ key, get? m key = get? n key) :
    m = n := by
  rw [← select_keys hm, ← select_keys (hkeys ▸ hm : (keys n).Nodup), hkeys, select_congr h]

/-- Dictionaries with the same values are the same entries in another order. -/
theorem perm_of_get? {m n : Dictionary α} (hm : (keys m).Nodup) (hn : (keys n).Nodup)
    (h : ∀ key, get? m key = get? n key) : m.Perm n := by
  refine (List.perm_ext_iff_of_nodup (List.Nodup.of_map _ hm) (List.Nodup.of_map _ hn)).2 ?_
  rintro ⟨key, value⟩
  constructor
  · intro hmem
    exact mem_of_get? (h key ▸ get?_of_mem hm hmem)
  · intro hmem
    exact mem_of_get? (h key ▸ get?_of_mem hn hmem)

theorem put_new {m : Dictionary α} {key : String} (h : key ∉ keys m) (value : α) :
    put m key value = m ++ [(key, value)] := by
  induction m with
  | nil => rfl
  | cons e m ih =>
    obtain ⟨k, v⟩ := e
    simp only [keys, List.map_cons, List.mem_cons, not_or] at h
    rw [put, if_neg (by simpa using Ne.symm h.1), ih h.2, List.cons_append]

theorem put_put (m : Dictionary α) (key : String) (first second : α) :
    put (put m key first) key second = put m key second := by
  induction m with
  | nil => simp [put]
  | cons e rest ih =>
    obtain ⟨k, v⟩ := e
    by_cases hk : k = key
    · simp [put, hk]
    · simp [put, hk, ih]

theorem put_eq_self {m : Dictionary α} {key : String} {value : α} (h : get? m key = some value) :
    put m key value = m := by
  induction m with
  | nil => exact absurd h (by simp [get?])
  | cons e rest ih =>
    obtain ⟨k, v⟩ := e
    rw [get?_cons] at h
    by_cases hk : k = key
    · rw [if_pos hk.symm] at h
      simp [put, hk, Option.some.inj h]
    · rw [if_neg (Ne.symm hk)] at h
      simp [put, hk, ih h]

/-- Entries that are put into a dictionary win over those that are there. -/
theorem get?_foldl_put {n : Dictionary α} (hn : (keys n).Nodup) (m : Dictionary α) (key : String) :
    get? (n.foldl (fun m (k, v) => put m k v) m) key = (get? n key).or (get? m key) := by
  induction n generalizing m with
  | nil => rfl
  | cons e rest ih =>
    obtain ⟨k, v⟩ := e
    obtain ⟨hk, hrest⟩ := List.nodup_cons.1 hn
    rw [List.foldl_cons, ih hrest, get?_put, get?_cons]
    by_cases hkey : key = k
    · rw [hkey, get?_eq_none_iff.2 hk, if_pos rfl, if_pos rfl, Option.none_or, Option.some_or]
    · rw [if_neg hkey, if_neg hkey]

/-- Keys that are there stay where they are, and new ones come behind them in their own order. -/
theorem keys_foldl_put {n : Dictionary α} (hn : (keys n).Nodup) (m : Dictionary α) :
    keys (n.foldl (fun m (k, v) => put m k v) m) = keys m ++ (keys n).filter (· ∉ keys m) := by
  induction n generalizing m with
  | nil => exact (List.append_nil _).symm
  | cons e rest ih =>
    obtain ⟨k, v⟩ := e
    obtain ⟨hk, hrest⟩ := List.nodup_cons.1 hn
    have hcons : keys ((k, v) :: rest) = k :: keys rest := rfl
    rw [List.foldl_cons, ih hrest, keys_put, hcons, List.filter_cons]
    by_cases hmem : k ∈ keys m
    · rw [if_pos hmem, if_neg (by simpa using hmem)]
    · have hnew : (keys rest).filter (· ∉ keys m ++ [k]) = (keys rest).filter (· ∉ keys m) := by
        refine List.filter_congr fun key hkey => ?_
        have hne : key ≠ k := fun heq => hk (heq ▸ hkey)
        simp [hne]
      rw [if_neg hmem, if_pos (by simpa using hmem), hnew, List.append_assoc, List.singleton_append]

theorem ofEntries_concat (entries : List (String × α)) (key : String) (value : α) :
    ofEntries (entries ++ [(key, value)]) = put (ofEntries entries) key value := by
  rw [ofEntries, List.foldl_append]
  rfl

theorem ofEntries_of_nodup {m : Dictionary α} (h : (keys m).Nodup) : ofEntries m = m := by
  induction m using List.reverseRecOn with
  | nil => rfl
  | append_singleton m e ih =>
    obtain ⟨k, v⟩ := e
    rw [keys, List.map_append, List.nodup_append] at h
    have hnew : k ∉ keys m := fun hmem => h.2.2 k hmem k (by simp) rfl
    rw [ofEntries_concat, ih h.1, put_new hnew]

theorem keys_ofEntries (entries : List (String × α)) :
    keys (ofEntries entries) = Text.firstOccurrences (entries.map (·.1)) := by
  induction entries using List.reverseRecOn with
  | nil => rfl
  | append_singleton entries e ih =>
    obtain ⟨k, v⟩ := e
    rw [ofEntries_concat, keys_put, ih, List.map_append, List.map_cons, List.map_nil, Text.firstOccurrences_concat]
    simp only [Text.mem_firstOccurrences]

/-- The last entry of a key gives its value. -/
theorem get?_ofEntries (entries : List (String × α)) (key : String) :
    get? (ofEntries entries) key = ((entries.filter (·.1 = key)).getLast?).map (·.2) := by
  induction entries using List.reverseRecOn with
  | nil => rfl
  | append_singleton entries e ih =>
    obtain ⟨k, v⟩ := e
    rw [ofEntries_concat, get?_put, ih, List.filter_append]
    by_cases hk : key = k
    · simp [hk]
    · simp [hk, Ne.symm hk]

/-- An entry that none of its key follows gives the value. -/
theorem get?_ofEntries_of_last {entries : List (String × α)} {i : Nat} {key : String} {value : α}
    (hi : entries[i]? = some (key, value)) (hlast : ∀ j e, i < j → entries[j]? = some e → e.1 ≠ key) :
    get? (ofEntries entries) key = some value := by
  obtain ⟨hlt, hi⟩ := List.getElem?_eq_some_iff.1 hi
  have hsplit : entries = entries.take i ++ (key, value) :: entries.drop (i + 1) := by
    rw [← hi, ← List.drop_eq_getElem_cons hlt, List.take_append_drop]
  have hrest : (entries.drop (i + 1)).filter (·.1 = key) = [] := by
    rw [List.filter_eq_nil_iff]
    intro e he
    obtain ⟨j, hj⟩ := List.mem_iff_getElem?.1 he
    rw [List.getElem?_drop] at hj
    simpa using hlast _ e (by omega) hj
  rw [get?_ofEntries, hsplit, List.filter_append, List.filter_cons_of_pos (by simp), hrest, List.getLast?_concat]
  rfl

theorem mem_of_mem_ofEntries {entries : List (String × α)} {e : String × α} (h : e ∈ ofEntries entries) :
    e ∈ entries := by
  have hnodup : (keys (ofEntries entries)).Nodup := keys_ofEntries entries ▸ Text.firstOccurrences_nodup _
  have hlast := get?_of_mem hnodup h
  rw [get?_ofEntries] at hlast
  obtain ⟨f, hf, hvalue⟩ := Option.map_eq_some_iff.1 hlast
  obtain ⟨hmem, hkey⟩ := List.mem_filter.1 (List.mem_of_getLast? hf)
  obtain rfl : f = e := Prod.ext (of_decide_eq_true hkey) hvalue
  exact hmem

theorem exists_last_of_mem {a : α} {xs : List α} (h : a ∈ xs) :
    ∃ i : Nat, xs[i]? = some a ∧ ∀ j, i < j → xs[j]? ≠ some a := by
  induction xs with
  | nil => cases h
  | cons x xs ih =>
    by_cases hmem : a ∈ xs
    · obtain ⟨i, hi, hlast⟩ := ih hmem
      refine ⟨i + 1, hi, fun j hj => ?_⟩
      obtain ⟨j, rfl⟩ : ∃ k, j = k + 1 := ⟨j - 1, by omega⟩
      exact hlast j (by omega)
    · obtain rfl := (List.mem_cons.1 h).resolve_right hmem
      refine ⟨0, rfl, fun j hj hget => hmem ?_⟩
      obtain ⟨j, rfl⟩ : ∃ k, j = k + 1 := ⟨j - 1, by omega⟩
      exact List.mem_of_getElem? hget

theorem exists_last_of_mem_ofEntries {entries : List (String × α)} {e : String × α} (h : e ∈ ofEntries entries) :
    ∃ i : Nat, entries[i]? = some e ∧ ∀ j f, i < j → entries[j]? = some f → f.1 ≠ e.1 := by
  have hnodup : (keys (ofEntries entries)).Nodup := keys_ofEntries entries ▸ Text.firstOccurrences_nodup _
  obtain ⟨i, hi, hlater⟩ := exists_last_of_mem (List.mem_map_of_mem (f := (·.1)) (mem_of_mem_ofEntries h))
  rw [List.getElem?_map, Option.map_eq_some_iff] at hi
  obtain ⟨⟨key, value⟩, hi, rfl⟩ := hi
  have hlast : ∀ j f, i < j → entries[j]? = some f → f.1 ≠ e.1 := fun j f hj hf hkey =>
    hlater j hj (by rw [List.getElem?_map, hf, Option.map_some, hkey])
  have hvalue : get? (ofEntries entries) e.1 = some value := get?_ofEntries_of_last hi hlast
  rw [get?_of_mem hnodup h, Option.some.injEq] at hvalue
  exact ⟨i, by rw [hi, ← hvalue], hlast⟩

/-- What all entries of a key agree on is what the key holds in the end. -/
theorem get?_ofEntries_of_forall {entries : List (String × α)} {key : String} {value : α}
    (hmem : (key, value) ∈ entries) (h : ∀ e ∈ entries, e.1 = key → e.2 = value) :
    get? (ofEntries entries) key = some value := by
  have hkey : key ∈ keys (ofEntries entries) := by
    rw [keys_ofEntries, Text.mem_firstOccurrences]
    exact List.mem_map_of_mem hmem
  cases hget : get? (ofEntries entries) key with
  | none => exact absurd hkey (get?_eq_none_iff.1 hget)
  | some w =>
    have hw : w = value := h (key, w) (mem_of_mem_ofEntries (mem_of_get? hget)) rfl
    rw [hw]

/-- Values by their keys: the keys in the order of their first occurrence, the values of each key in their own order. -/
def grouped (entries : List (String × α)) : Dictionary (List α) :=
  (Text.firstOccurrences (entries.map (·.1))).map fun key => (key, (entries.filter (·.1 = key)).map (·.2))

theorem keys_grouped (entries : List (String × α)) :
    keys (grouped entries) = Text.firstOccurrences (entries.map (·.1)) := by
  simp [grouped, keys, Function.comp_def]

theorem get?_grouped (entries : List (String × α)) (key : String) : get? (grouped entries) key =
    if key ∈ entries.map (·.1) then some ((entries.filter (·.1 = key)).map (·.2)) else none := by
  have hnodup : (keys (grouped entries)).Nodup := keys_grouped entries ▸ Text.firstOccurrences_nodup _
  split
  next hkey => exact get?_of_mem hnodup (List.mem_map.2 ⟨key, Text.mem_firstOccurrences.2 hkey, rfl⟩)
  next hkey => rwa [get?_eq_none_iff, keys_grouped, Text.mem_firstOccurrences]

theorem getD_grouped (entries : List (String × α)) (key : String) :
    (get? (grouped entries) key).getD [] = (entries.filter (·.1 = key)).map (·.2) := by
  rw [get?_grouped]
  split
  next => rfl
  next hkey =>
    have hnone : entries.filter (·.1 = key) = [] := by
      refine List.filter_eq_nil_iff.2 fun e he heq => hkey ?_
      exact of_decide_eq_true heq ▸ List.mem_map_of_mem he
    rw [hnone, Option.getD_none, List.map_nil]

/-- A group is there if it has an item. -/
theorem mem_keys_grouped {entries : List (String × α)} {key : String} :
    key ∈ keys (grouped entries) ↔ (get? (grouped entries) key).getD [] ≠ [] := by
  rw [keys_grouped, Text.mem_firstOccurrences, getD_grouped, ne_eq, List.map_eq_nil_iff, List.filter_eq_nil_iff]
  simp only [List.mem_map, decide_eq_true_eq, not_forall, not_not, exists_prop]

/-- Items that are pushed one after another are grouped by their keys. -/
theorem foldl_push (entries : List (String × α)) : entries.foldl (fun d e => push d e.1 e.2) [] = grouped entries := by
  induction entries using List.reverseRecOn with
  | nil => rfl
  | append_singleton entries e ih =>
    rw [List.foldl_append, ih, List.foldl_cons, List.foldl_nil, push]
    refine ext_keys ?_ ?_ fun key => ?_
    · exact keys_put_nodup (keys_grouped entries ▸ Text.firstOccurrences_nodup _) _ _
    · rw [keys_put, keys_grouped, keys_grouped, List.map_append, List.map_singleton, Text.firstOccurrences_concat]
      simp only [Text.mem_firstOccurrences]
    · rw [get?_put, getD_grouped, get?_grouped, get?_grouped, List.filter_append, List.map_append]
      by_cases hkey : key = e.1
      · simp [hkey]
      · simp only [List.map_append, List.mem_append, List.map_singleton, List.mem_singleton, hkey, or_false, if_false]
        simp [Ne.symm hkey]

/-- The entry of one of some different keys. -/
theorem filter_keyed {β : Type} {names : List String} (h : names.Nodup) (f : String → β) (name : String) :
    ((names.map fun n => (n, f n)).filter (·.1 = name)).map (·.2) = if name ∈ names then [f name] else [] := by
  rw [List.filter_map, List.map_map]
  have hfilter : names.filter ((fun e : String × β => decide (e.1 = name)) ∘ fun n => (n, f n)) =
      List.replicate (names.count name) name := List.filter_eq name
  rw [hfilter]
  split
  next hmem => rw [List.count_eq_one_of_mem h hmem]; rfl
  next hmem => rw [List.count_eq_zero_of_not_mem hmem]; rfl

/-- Of different items a single one adds something. -/
theorem flatMap_of_unique {β γ : Type} {items : List β} (h : items.Nodup) {item : β} (hitem : item ∈ items)
    {f : β → List γ}
    (hothers : ∀ other, other ≠ item → f other = []) : items.flatMap f = f item := by
  obtain ⟨before, after, rfl⟩ := List.append_of_mem hitem
  obtain ⟨-, hafter, hbefore⟩ := List.nodup_append.1 h
  have hnone : ∀ rest : List β, item ∉ rest → rest.flatMap f = [] := fun rest hrest =>
    List.flatMap_eq_nil_iff.2 fun other hother => hothers other fun heq => hrest (heq ▸ hother)
  rw [List.flatMap_append, List.flatMap_cons, hnone before fun hmem => hbefore item hmem item List.mem_cons_self rfl,
    hnone after (List.nodup_cons.1 hafter).1, List.nil_append, List.append_nil]

/-- Names that are all different split a list of items into the items of each name. -/
theorem flatMap_filter_perm {β : Type} (nameOf : β → String) {names : List String} (hnames : names.Nodup)
    {items : List β}
    (h : ∀ item ∈ items, nameOf item ∈ names) :
    (names.flatMap fun name => items.filter (nameOf · = name)).Perm items := by
  induction names generalizing items with
  | nil =>
    cases items with
    | nil => exact .nil
    | cons item _ => exact absurd (h item List.mem_cons_self) List.not_mem_nil
  | cons name names ih =>
    obtain ⟨hname, hnames⟩ := List.nodup_cons.1 hnames
    have hrest : (names.flatMap fun other => items.filter (nameOf · = other)) =
        names.flatMap fun other =>
          (items.filter fun item => !decide (nameOf item = name)).filter (nameOf · = other) := by
      refine List.flatMap_congr fun other hother => ?_
      rw [List.filter_filter]
      refine List.filter_congr fun item _ => ?_
      by_cases hitem : nameOf item = other
      · have hne : other ≠ name := fun heq => hname (heq ▸ hother)
        simp [hitem, hne]
      · simp [hitem]
    rw [List.flatMap_cons, hrest]
    refine ((ih hnames fun item hitem => ?_).append_left _).trans (List.filter_append_perm _ items)
    obtain ⟨hitem, hne⟩ := List.mem_filter.1 hitem
    exact (List.mem_cons.1 (h item hitem)).resolve_left (by simpa using hne)

/-- What is grouped is what was given, in another order. -/
theorem flatMap_grouped_perm (entries : List (String × α)) :
    ((grouped entries).flatMap fun group => group.2.map (group.1, ·)).Perm entries := by
  have hgroup : ((grouped entries).flatMap fun group => group.2.map (group.1, ·)) =
      (Text.firstOccurrences (entries.map (·.1))).flatMap fun key => entries.filter (·.1 = key) := by
    rw [grouped, List.flatMap_map]
    refine List.flatMap_congr fun key _ => ?_
    rw [List.map_map]
    refine (List.map_congr_left fun e he => ?_).trans (List.map_id _)
    exact Prod.ext (of_decide_eq_true (List.mem_filter.1 he).2).symm rfl
  rw [hgroup]
  exact flatMap_filter_perm (fun e : String × α => e.1) (Text.firstOccurrences_nodup _) fun e he =>
    Text.mem_firstOccurrences.2 (List.mem_map_of_mem he)

/-- How many values each key has. -/
def counts (entries : List (String × α)) : Dictionary Nat :=
  (grouped entries).map fun (key, items) => (key, items.length)

theorem keys_counts (entries : List (String × α)) : keys (counts entries) = Text.firstOccurrences (entries.map (·.1)) :=
  (keys_map (fun _ (items : List α) => items.length) _).trans (keys_grouped entries)

theorem getD_counts (entries : List (String × α)) (key : String) :
    (get? (counts entries) key).getD 0 = (entries.filter (·.1 = key)).length := by
  have hmap : get? (counts entries) key = (get? (grouped entries) key).map (·.length) :=
    get?_map (fun _ (items : List α) => items.length) _ key
  have hgroup : (entries.filter (·.1 = key)).length = ((get? (grouped entries) key).getD []).length := by
    rw [getD_grouped, List.length_map]
  rw [hmap, hgroup]
  cases get? (grouped entries) key <;> rfl

theorem sum_counts (entries : List (String × α)) : ((counts entries).map (·.2)).sum = entries.length := by
  rw [← (flatMap_grouped_perm entries).length_eq, List.length_flatMap, counts, List.map_map]
  simp [Function.comp_def]

theorem counts_perm {entries entries' : List (String × α)} (h : entries.Perm entries') :
    (counts entries).Perm (counts entries') := by
  have hnames : (Text.firstOccurrences (entries.map (·.1))).Perm (Text.firstOccurrences (entries'.map (·.1))) := by
    rw [List.perm_ext_iff_of_nodup (Text.firstOccurrences_nodup _) (Text.firstOccurrences_nodup _)]
    exact fun name => by rw [Text.mem_firstOccurrences, Text.mem_firstOccurrences, (h.map _).mem_iff]
  have hlength : ∀ key, (entries.filter (·.1 = key)).length = (entries'.filter (·.1 = key)).length :=
    fun key => (h.filter _).length_eq
  simp only [counts, grouped, List.map_map, Function.comp_def, List.length_map, hlength]
  exact hnames.map _

end NoteVault.Dictionary
