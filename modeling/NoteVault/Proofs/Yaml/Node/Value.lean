import NoteVault.Proofs.Dictionary
import NoteVault.Proofs.Yaml.Node.Stands

/-!
The value of a node that stands for a value: the same one, with its objects at the places of their anchors.
-/
namespace NoteVault.Yaml

open Node

variable {repeated : List Value} {ρ : Nat → Nat} {v : Value} {n : Node}

mutual

/-- The value with each object that occurs several times at the place of its anchor; any other object is
not an object of its own any more. -/
def placed (repeated : List Value) (ρ : Nat → Nat) : Value → Value
  | .list items => .list (placedItems repeated ρ items)
  | .map entries => .map (placedEntries repeated ρ entries)
  | .shared place v =>
    if repeated.contains (.shared place v) then .shared ⟨ρ (repeated.idxOf (.shared place v) + 1), 0⟩ v else v
  | v => v

def placedItems (repeated : List Value) (ρ : Nat → Nat) : List Value → List Value
  | [] => []
  | v :: rest => placed repeated ρ v :: placedItems repeated ρ rest

def placedEntries (repeated : List Value) (ρ : Nat → Nat) : List (String × Value) → List (String × Value)
  | [] => []
  | (k, v) :: rest => (k, placed repeated ρ v) :: placedEntries repeated ρ rest

end

theorem placed_simple (h : isSimple v = true) : placed repeated ρ v = v := by
  cases v <;> first | rfl | exact absurd h (by simp [isSimple])

theorem exists_foldlM {α β ε : Type} {f : β → α → Except ε β} {P : β → Prop} (xs : List α) {b : β} (hb : P b)
    (h : ∀ b x, P b → x ∈ xs → ∃ c, f b x = .ok c ∧ P c) : ∃ c, xs.foldlM f b = .ok c ∧ P c := by
  induction xs generalizing b with
  | nil => exact ⟨b, rfl, hb⟩
  | cons x xs ih =>
    obtain ⟨c, hc, hPc⟩ := h b x hb (by simp)
    obtain ⟨d, hd, hPd⟩ := ih hPc fun b y hPb hy => h b y hPb (List.mem_cons_of_mem _ hy)
    exact ⟨d, by simpa only [List.foldlM_cons, hc, bind, Except.bind] using hd, hPd⟩

theorem isMergeKey_of_isKey {k : String} {key : Node} (h : Node.IsKey k key) : key.isMergeKey = false := by
  obtain ⟨mark, rfl⟩ := h
  rfl

theorem merges_of_keys {h : NodeHead} {entries : List (Node × Node)} (hkeys : ∀ e ∈ entries, ∃ k, Node.IsKey k e.1) :
    (mapping h entries).merges = false := by
  refine List.any_eq_false.2 fun e he => ?_
  obtain ⟨k, hk⟩ := hkeys e he
  simp [isMergeKey_of_isKey hk]

/-- No entry is merged into a mapping whose keys are texts. -/
theorem flatEntries_of_keys {h : NodeHead} {entries : List (Node × Node)}
    (hkeys : ∀ e ∈ entries, ∃ k, Node.IsKey k e.1) : (mapping h entries).flatEntries = .ok entries := by
  have hkey : ∀ e ∈ entries, e.1.isMergeKey = false := fun e he => (hkeys e he).elim fun _ => isMergeKey_of_isKey
  have hmerged : ∀ {mark} {entries : List (Node × Node)}, (∀ e ∈ entries, e.1.isMergeKey = false) →
      mergedEntries mark entries = .ok [] := by
    intro mark entries hentries
    induction entries with
    | nil => rw [mergedEntries]
    | cons e more ih =>
      rw [mergedEntries, hentries e (by simp)]
      exact ih fun e he => hentries e (List.mem_cons_of_mem _ he)
  rw [flatEntries, hmerged hkey]
  simp only [bind, Except.bind, pure, Except.pure, List.nil_append]
  rw [List.filter_eq_self.2]
  intro e he
  simp [hkey e he]

theorem ItemsStand.exists_mem {items : List Value} {nodes : List Node} (h : ItemsStand repeated ρ items nodes) :
    ∀ n ∈ nodes, ∃ v, Stands repeated ρ v n := by
  induction items generalizing nodes with
  | nil => rw [show nodes = [] from h]; simp
  | cons v more ih =>
    obtain ⟨n, more, rfl, hn, hmore⟩ := h
    rintro m (- | ⟨_, hm⟩)
    · exact ⟨v, hn⟩
    · exact ih hmore m hm

theorem EntriesStand.exists_mem {entries : List (String × Value)} {nodes : List (Node × Node)}
    (h : EntriesStand repeated ρ entries nodes) :
    ∀ e ∈ nodes, (∃ k, Node.IsKey k e.1) ∧ ∃ v, Stands repeated ρ v e.2 := by
  induction entries generalizing nodes with
  | nil => rw [show nodes = [] from h]; simp
  | cons e more ih =>
    obtain ⟨key, n, more, rfl, hkey, hn, hmore⟩ := h
    rintro m (- | ⟨_, hm⟩)
    · exact ⟨⟨e.1, hkey⟩, e.2, hn⟩
    · exact ih hmore m hm

theorem MembersStand.exists_key {members : List String} {nodes : List (Node × Node)} (h : MembersStand members nodes) :
    ∀ e ∈ nodes, ∃ k, Node.IsKey k e.1 := by
  induction h with
  | nil => simp
  | cons h _ ih =>
    rintro m (- | ⟨_, hm⟩)
    · exact ⟨_, h.1⟩
    · exact ih m hm

theorem MembersStand.exists_mem {members : List String} {nodes : List (Node × Node)} (h : MembersStand members nodes) :
    ∀ e ∈ nodes, (∃ k, Node.IsKey k e.1) ∧ ∃ v, Stands repeated ρ v e.2 := by
  refine fun e he => ⟨h.exists_key e he, ?_⟩
  induction h with
  | nil => simp at he
  | cons h _ ih =>
    obtain rfl | he := List.mem_cons.1 he
    · obtain ⟨mark, hnull⟩ := h.2
      exact ⟨.null, .null, mark, "null", hnull, by rw [hnull]; exact ⟨rfl, rfl⟩⟩
    · exact ih he

/-- A collection of nodes that stand for values. -/
inductive Holds (repeated : List Value) (ρ : Nat → Nat) : Node → Prop
  | sequence {mark : Mark} {nodes : List Node} (h : ∀ n ∈ nodes, ∃ v, Stands repeated ρ v n) :
    Holds repeated ρ (sequence ⟨.seq, mark, false, false⟩ nodes)
  | mapping {tag : Tag} {mark : Mark} {anchored : Bool} {nodes : List (Node × Node)} (htag : tag = .map ∨ tag = .set)
    (h : ∀ e ∈ nodes, (∃ k, Node.IsKey k e.1) ∧ ∃ v, Stands repeated ρ v e.2) :
    Holds repeated ρ (mapping ⟨tag, mark, anchored, false⟩ nodes)

/-- A node that stands for a value is a scalar with this value, or a collection of such nodes. -/
theorem Stands.cases (h : Stands repeated ρ v n) :
    (n.head.enclosing = false ∧ n.hasParts = false ∧ n.scalarValue = .ok v) ∨ Holds repeated ρ n := by
  cases v with
  | null | bool _ | int _ | float _ | str _ | bytes _ | date _ | datetime _ =>
    rw [stands_simple (by rfl)] at h
    obtain ⟨tag, mark, text, rfl, hparts, hvalue⟩ := h
    exact .inl ⟨rfl, hparts, hvalue⟩
  | tuple _ => exact absurd h id
  | list items =>
    obtain ⟨mark, nodes, rfl, hnodes⟩ := h
    exact .inr (.sequence hnodes.exists_mem)
  | map entries =>
    obtain ⟨mark, nodes, rfl, hnodes⟩ := h
    exact .inr (.mapping (.inl rfl) hnodes.exists_mem)
  | set members =>
    obtain ⟨mark, nodes, rfl, hnodes⟩ := h
    exact .inr (.mapping (.inr rfl) hnodes.exists_mem)
  | shared place v =>
    obtain ⟨members, mark, nodes, rfl, rfl, hnodes, -⟩ := h
    exact .inr (.mapping (.inr rfl) hnodes.exists_mem)

/-- What waits is a collection of nodes that stand for values. -/
def Node.Progress.Waits (repeated : List Value) (ρ : Nat → Nat) (p : Progress) : Prop :=
  ∀ n ∈ p.waiting, Holds repeated ρ n

theorem Holds.parts (h : Holds repeated ρ n) : n.head.enclosing = false ∧ n.hasParts = true := by
  cases h with
  | sequence _ => exact ⟨rfl, rfl⟩
  | mapping htag _ => rcases htag with rfl | rfl <;> exact ⟨rfl, rfl⟩

theorem Stands.meet (h : Stands repeated ρ v n) {p : Progress} (hp : p.Waits repeated ρ) (fuel : Nat) :
    ∃ q, p.meet fuel false n = .ok q ∧ q.Waits repeated ρ := by
  cases fuel with
  | zero => exact ⟨p, by rw [Progress.meet], hp⟩
  | succ fuel =>
    rw [Progress.meet]
    obtain ⟨henclosing, hparts, hvalue⟩ | hholds := h.cases
    · rw [henclosing, hparts, hvalue]
      exact ⟨p, rfl, hp⟩
    · rw [hholds.parts.1, hholds.parts.2]
      simp only [Bool.false_eq_true, if_false, Bool.not_true]
      by_cases hknows : p.knows n = true
      · rw [if_pos hknows]
        exact ⟨p, rfl, hp⟩
      · rw [if_neg hknows]
        refine ⟨_, rfl, fun m hm => ?_⟩
        obtain rfl | hm := List.mem_cons.1 hm
        · exact hholds
        · exact hp m hm

/-- The entries of a mapping are met one after another, its keys being texts. -/
theorem exists_reveal {f : Progress × Nat → Node × Node → Except Error (Progress × Nat)} {fuel : Nat} {p : Progress}
    {nodes : List (Node × Node)} (hp : p.Waits repeated ρ)
    (hnodes : ∀ e ∈ nodes, (∃ k, Node.IsKey k e.1) ∧ ∃ v, Stands repeated ρ v e.2)
    (hf : ∀ p i h k value, f (p, i) (.scalar h k, value) = (p.meet fuel false value).bind fun q => .ok (q, i + 1)) :
    ∃ q, (Except.ok nodes >>= fun entries => entries.foldlM f (p, 0) >>= fun x => pure (x.1.reveal n)) = .ok q ∧
      q.Waits repeated ρ := by
  obtain ⟨⟨q, i⟩, hq, hwaits⟩ := exists_foldlM (f := f) (P := fun x => x.1.Waits repeated ρ) _ (b := (p, 0)) hp
    (fun x e hx he => by
      obtain ⟨⟨k, mark, hk⟩, v, hv⟩ := hnodes e he
      obtain ⟨q, hq, hwaits⟩ := hv.meet hx fuel
      obtain ⟨key, value⟩ := e
      obtain rfl : key = _ := hk
      exact ⟨(q, x.2 + 1), by rw [hf, hq]; rfl, hwaits⟩)
  simp only [hq, bind, Except.bind, pure, Except.pure]
  exact ⟨_, rfl, hwaits⟩

theorem Holds.fill (h : Holds repeated ρ n) {p : Progress} (hp : p.Waits repeated ρ) (fuel : Nat) :
    ∃ q, p.fill fuel false n = .ok q ∧ q.Waits repeated ρ := by
  cases fuel with
  | zero => exact ⟨p, by rw [Progress.fill], hp⟩
  | succ fuel =>
    cases h with
    | sequence hnodes =>
      rw [Progress.fill]
      obtain ⟨q, hq, hwaits⟩ := exists_foldlM (f := Progress.meet fuel false) _ hp
        (fun p n hp hn => (hnodes n hn).elim fun v hv => hv.meet hp fuel)
      simp only [Node.head, hq, bind, Except.bind, pure, Except.pure]
      exact ⟨_, rfl, hwaits⟩
    | @mapping tag mark anchored nodes htag hnodes =>
      have hflat := flatEntries_of_keys (h := ⟨tag, mark, anchored, false⟩) fun e he => (hnodes e he).1
      rcases htag with rfl | rfl <;> rw [Progress.fill.eq_def] <;> simp only [Node.head, hflat] <;>
        exact exists_reveal hp hnodes fun _ _ _ _ _ => rfl

/-- Every level of a document can be read. -/
theorem Node.Progress.exists_levels {p : Progress} (hp : p.Waits repeated ρ) (fuel rounds : Nat) :
    ∃ q, p.levels fuel rounds = .ok q := by
  induction rounds generalizing p with
  | zero => exact ⟨p, by rw [levels]⟩
  | succ rounds ih =>
    rw [levels]
    split
    · exact ⟨p, rfl⟩
    next ns hns =>
      have hnone : Waits repeated ρ { p with waiting := [] } := by simp [Waits]
      obtain ⟨q, hq, hwaits⟩ := exists_foldlM (f := Progress.fill fuel false) p.waiting.reverse hnone
        (fun q n hq hn => (hp n (by simpa using hn)).fill hq fuel)
      simp only [hq, bind, Except.bind]
      exact ih hwaits

/-- A member that comes after all others is added at the end. -/
theorem insertMember_last {m : String} {ms : List String} (h : ∀ l ∈ ms, l < m) : insertMember m ms = ms ++ [m] := by
  induction ms with
  | nil => rfl
  | cons l ms ih =>
    have hl := h l (by simp)
    rw [insertMember, if_neg (by rintro rfl; exact String.lt_irrefl m hl), if_neg (String.lt_asymm hl),
      ih fun k hk => h k (List.mem_cons_of_mem _ hk), List.cons_append]

theorem foldl_insertMember (done : List String) {ms : List String} (h : (done ++ ms).Pairwise (· < ·)) :
    ms.foldl (fun s m => insertMember m s) done = done ++ ms := by
  induction ms generalizing done with
  | nil => simp
  | cons m ms ih =>
    have hlast : ∀ l ∈ done, l < m := fun l hl => (List.pairwise_append.1 h).2.2 l hl m (by simp)
    rw [List.foldl_cons, insertMember_last hlast, ih _ (by simpa using h)]
    simp

theorem keyText_of_isKey {k : String} {key : Node} (h : Node.IsKey k key) (keys : KeyTexts) (n : Node) (i : Nat) :
    keyText keys n i key = k := by
  obtain ⟨mark, rfl⟩ := h
  rfl

theorem MembersStand.texts {members : List String} {nodes : List (Node × Node)} (h : MembersStand members nodes)
    {f : Nat → Node × Node → String} (hf : ∀ i k e, Node.IsKey k e.1 → f i e = k) : nodes.mapIdx f = members := by
  induction h generalizing f with
  | nil => rfl
  | cons h _ ih => rw [List.mapIdx_cons, hf 0 _ _ h.1, ih fun i k e he => hf (i + 1) k e he]

theorem valueFrom_members {keys : KeyTexts} {fuel : Nat} {members : List String} {mark : Mark} {anchored : Bool}
    {nodes : List (Node × Node)} (h : MembersStand members nodes) (hsorted : members.Pairwise (· < ·)) :
    valueFrom keys [] (fuel + 1) false (mapping ⟨.set, mark, anchored, false⟩ nodes) =
      if anchored then .shared ⟨mark.index, 0⟩ (.set members) else .set members := by
  have hflat := flatEntries_of_keys (h := ⟨.set, mark, anchored, false⟩) fun e he => (h.exists_key e he)
  rw [valueFrom]
  simp only [Node.head, hflat, Bool.false_or, List.contains_nil, Bool.and_false, Bool.not_false, if_true,
    Except.toOption, Option.getD_some]
  rw [h.texts fun i k e he => keyText_of_isKey he keys _ i, foldl_insertMember [] hsorted]
  rfl

theorem keys_placedEntries (entries : List (String × Value)) :
    (placedEntries repeated ρ entries).map (·.1) = entries.map (·.1) := by
  induction entries with
  | nil => rfl
  | cons e more ih => rw [placedEntries, List.map_cons, List.map_cons, ih]

/-- A scalar is inside no anchor here, so that it is no object of its own. -/
theorem valueFrom_scalar {keys : KeyTexts} {hidden : List Nat} {fuel : Nat} {tag : Tag} {mark : Mark} {text : String}
    (hparts : (scalar ⟨tag, mark, false, false⟩ text).hasParts = false)
    (hvalue : (scalar ⟨tag, mark, false, false⟩ text).scalarValue = .ok v) :
    valueFrom keys hidden (fuel + 1) false (scalar ⟨tag, mark, false, false⟩ text) = v := by
  rw [valueFrom]
  cases tag with
  | seq | map | set | omap | pairs => exact absurd hparts (by simp [hasParts, Node.head])
  | _ =>
    simp only [Node.head, hvalue, Bool.false_or]
    cases v <;> rfl

mutual

/-- The value of a node that stands for a value. -/
theorem valueFrom_stands (v : Value) {n : Node} {keys : KeyTexts} {fuel : Nat} (hv : ReadsBack v)
    (h : Stands repeated ρ v n) (hfuel : n.depth ≤ fuel) : valueFrom keys [] fuel false n = placed repeated ρ v := by
  cases v with
  | null | bool _ | int _ | float _ | str _ | bytes _ | date _ | datetime _ =>
    rw [stands_simple (by rfl)] at h
    obtain ⟨tag, mark, text, rfl, hparts, hvalue⟩ := h
    obtain ⟨fuel, rfl⟩ : ∃ m, fuel = m + 1 := ⟨fuel - 1, by simp [depth] at hfuel; omega⟩
    exact (valueFrom_scalar hparts hvalue).trans (placed_simple (by rfl)).symm
  | tuple _ => exact absurd h id
  | list items =>
    obtain ⟨mark, nodes, rfl, hnodes⟩ := h
    obtain ⟨fuel, rfl⟩ : ∃ m, fuel = m + 1 := ⟨fuel - 1, by simp [depth] at hfuel; omega⟩
    rw [valueFrom, placed, ← map_stands items keys fuel hv hnodes (by simpa [depth] using hfuel)]
    rfl
  | map entries =>
    obtain ⟨mark, nodes, rfl, hnodes⟩ := h
    obtain ⟨fuel, rfl⟩ : ∃ m, fuel = m + 1 := ⟨fuel - 1, by simp [depth] at hfuel; omega⟩
    have hflat := flatEntries_of_keys (h := ⟨.map, mark, false, false⟩) fun e he => (hnodes.exists_mem e he).1
    have hmerges := merges_of_keys (h := ⟨.map, mark, false, false⟩) fun e he => (hnodes.exists_mem e he).1
    have hentries := map_entriesStand entries keys fuel hv.2 hnodes (by simpa [depth] using hfuel)
      (f := fun i e => (keyText keys (mapping ⟨.map, mark, false, false⟩ nodes) i e.1,
        valueFrom keys [] fuel false e.2))
      fun i k e he => by rw [keyText_of_isKey he]
    rw [valueFrom, placed]
    simp only [Node.head, hflat, hmerges, Bool.false_or, Bool.false_and, Bool.not_false, if_true, Except.toOption,
      Option.getD_some]
    rw [hentries, Dictionary.ofEntries_of_nodup (by rw [Dictionary.keys, keys_placedEntries]; exact hv.1)]
    rfl
  | set members =>
    obtain ⟨mark, nodes, rfl, hnodes⟩ := h
    obtain ⟨fuel, rfl⟩ : ∃ m, fuel = m + 1 := ⟨fuel - 1, by simp [depth] at hfuel; omega⟩
    exact valueFrom_members hnodes hv.sorted
  | shared place v =>
    obtain ⟨members, mark, nodes, rfl, rfl, hnodes, hplace⟩ := h
    obtain ⟨_, ⟨⟩, hmembers⟩ := hv
    obtain ⟨fuel, rfl⟩ : ∃ m, fuel = m + 1 := ⟨fuel - 1, by simp [depth] at hfuel; omega⟩
    rw [valueFrom_members hnodes hmembers.sorted, placed]
    split
    next hmem => rw [hplace (by simpa using hmem)]
    next => rfl

theorem map_stands (items : List Value) (keys : KeyTexts) (fuel : Nat) {nodes : List Node} (hv : ItemsReadBack items)
    (h : ItemsStand repeated ρ items nodes) (hfuel : depthOfItems nodes ≤ fuel) :
    nodes.map (valueFrom keys [] fuel false) = placedItems repeated ρ items := by
  cases items with
  | nil => rw [show nodes = [] from h]; rfl
  | cons v more =>
    obtain ⟨n, nodes, rfl, hn, hmore⟩ := h
    rw [depthOfItems] at hfuel
    rw [List.map_cons, placedItems, valueFrom_stands v hv.1 hn (by omega),
      map_stands more keys fuel hv.2 hmore (by omega)]

theorem map_entriesStand (entries : List (String × Value)) (keys : KeyTexts) (fuel : Nat) {nodes : List (Node × Node)}
    {f : Nat → Node × Node → String × Value} (hv : EntriesReadBack entries) (h : EntriesStand repeated ρ entries nodes)
    (hfuel : depthOfEntries nodes ≤ fuel)
    (hf : ∀ i k e, Node.IsKey k e.1 → f i e = (k, valueFrom keys [] fuel false e.2)) :
    nodes.mapIdx f = placedEntries repeated ρ entries := by
  cases entries with
  | nil => rw [show nodes = [] from h]; rfl
  | cons e more =>
    obtain ⟨key, n, nodes, rfl, hkey, hn, hmore⟩ := h
    rw [depthOfEntries] at hfuel
    rw [List.mapIdx_cons, placedEntries, hf 0 _ _ hkey, valueFrom_stands e.2 hv.2.1 hn (by omega),
      map_entriesStand more keys fuel hv.2.2 hmore (by omega) fun i k e he => hf (i + 1) k e he]

end

/-- A document whose root stands for a value has this value. -/
theorem toValue_stands {root : Node} (hv : ReadsBack v) (h : Stands repeated ρ v root) :
    root.toValue = .ok (placed repeated ρ v) := by
  obtain ⟨p, hp, hwaits⟩ := h.meet (p := Progress.empty) (by simp [Progress.Waits, Progress.empty]) (3 * root.depth + 3)
  obtain ⟨q, hq⟩ := Progress.exists_levels hwaits (3 * root.depth + 3) root.depth
  rw [toValue]
  simp only [hp, hq, bind, Except.bind, pure, Except.pure]
  rw [valueFrom_stands v hv h le_rfl]

end NoteVault.Yaml
