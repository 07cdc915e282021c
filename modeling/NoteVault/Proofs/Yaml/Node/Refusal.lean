import NoteVault.Proofs.Dictionary
import NoteVault.Proofs.Yaml.Node.Text

/-!
Why a document with nodes has no value: some node that is read for its value is at fault, or it has a text that its tag
does not take, or is no mapping where one is wanted, or a key of it holds an integer that cannot be written.
-/
namespace NoteVault.Yaml.Node

/-- The text of a scalar, which is its name as a key. -/
def name? : Node → Option String
  | scalar _ text => some text
  | _ => none

theorem name?_eq_none {n : Node} (h : ∀ head text, n ≠ scalar head text) : n.name? = none := by
  cases n with
  | scalar head text => exact absurd rfl (h head text)
  | sequence _ _ | mapping _ _ => rfl

/-- The tags of collections are those of lists, of lists of pairs, and of mappings. -/
theorem hasParts_iff {n : Node} : n.hasParts = true ↔ n.head.tag = .seq ∨ (n.head.tag = .omap ∨ n.head.tag = .pairs) ∨
    (n.head.tag = .map ∨ n.head.tag = .set) := by
  unfold hasParts
  cases n.head.tag <;> simp

/-- A part of a node that is read for its value. A scalar that is a key is not read: it is its text. -/
inductive Opens (n : Node) : Node → Prop
  | item {m : Node} (htag : n.head.tag = .seq) (hm : m ∈ n.items) : Opens n m
  | pair {o : Node × Node} {m : Node} (htag : n.head.tag = .omap ∨ n.head.tag = .pairs) (ho : o ∈ n.itemPairs)
    (hm : m = o.1 ∨ m = o.2) : Opens n m
  | key {pairs : List (Node × Node)} {o : Node × Node} (htag : n.head.tag = .map ∨ n.head.tag = .set)
    (hpairs : n.flatEntries = .ok pairs) (ho : o ∈ pairs) (hkey : o.1.name? = none) : Opens n o.1
  | value {pairs : List (Node × Node)} {o : Node × Node} (htag : n.head.tag = .map ∨ n.head.tag = .set)
    (hpairs : n.flatEntries = .ok pairs) (ho : o ∈ pairs) : Opens n o.2

/-- A node is read for the value of a document. -/
def Reads : Node → Node → Prop := Relation.ReflTransGen Opens

/-- What the node stands for shows an integer of too many digits. Of the entries with one scalar as their key only the
last one counts, and members of sets are texts. -/
inductive ShowsLong : Node → Prop
  | int {n : Node} {i : Int} (htag : n.head.tag = .int) (h : n.scalarValue = .ok (.int i))
    (hlong : (Value.int i).hasLongInteger = true) : ShowsLong n
  | item {n m : Node} (htag : n.head.tag = .seq) (hm : m ∈ n.items) (h : ShowsLong m) : ShowsLong n
  | pair {n m : Node} {o : Node × Node} (htag : n.head.tag = .omap ∨ n.head.tag = .pairs) (ho : o ∈ n.itemPairs)
    (hm : m = o.1 ∨ m = o.2) (h : ShowsLong m) : ShowsLong n
  | value {n : Node} {pairs : List (Node × Node)} {i : Nat} {o : Node × Node} (htag : n.head.tag = .map)
    (hpairs : n.flatEntries = .ok pairs) (hi : pairs[i]? = some o)
    (hlast : ∀ text, o.1.name? = some text → ∀ j p, i < j → pairs[j]? = some p → p.1.name? ≠ some text)
    (h : ShowsLong o.2) : ShowsLong n

/-- A list of mappings of one entry each. -/
def ListsPairs (n : Node) : Prop := n.kind = .sequence ∧ ∀ m ∈ n.items, ∃ head pair, m = .mapping head [pair]

/-- A node is at fault: it stands for a collection around it, it is not of the kind that its tag wants, its text is not
one of octets, or its tag has no values at all. -/
inductive IsFaulty (n : Node) : Prop
  | enclosing (h : n.head.enclosing = true)
  | scalar {f : Fault} (hparts : n.hasParts = false) (h : n.scalarValue = .error (.fault f))
  | sequence (htag : n.head.tag = .seq) (h : n.kind ≠ .sequence)
  | pairs (htag : n.head.tag = .omap ∨ n.head.tag = .pairs) (h : ¬ n.ListsPairs)
  | entries {f : Fault} (htag : n.head.tag = .map ∨ n.head.tag = .set) (h : n.flatEntries = .error (.fault f))

/-- A node stands for no value although it is not at fault. -/
inductive HasNoValue (n : Node) : Prop
  /-- Its tag does not take its text. -/
  | text {text : String} (h : n.HasText text) (htag : ¬ n.head.tag.Takes text)
  /-- It is a point in time that is written as a mapping. -/
  | timestamp {text : String} (htag : n.head.tag = .timestamp) (hkind : n.kind = .mapping) (h : n.HasText text)
  /-- It is a scalar that should be a mapping, other than the empty one. -/
  | scalarEntries {head : NodeHead} {text : String} (htag : n.head.tag = .map ∨ n.head.tag = .set)
    (hn : n = .scalar head text) (h : text ≠ "")
  /-- It is a list that should be a mapping, other than the empty one. -/
  | itemEntries {head : NodeHead} {items : List Node} (htag : n.head.tag = .map ∨ n.head.tag = .set)
    (hn : n = .sequence head items) (h : items ≠ [])
  /-- A key of it that is no scalar shows an integer of too many digits. -/
  | longKey {pairs : List (Node × Node)} {o : Node × Node} (htag : n.head.tag = .map ∨ n.head.tag = .set)
    (hpairs : n.flatEntries = .ok pairs) (ho : o ∈ pairs) (hkey : o.1.name? = none) (hlong : o.1.ShowsLong)

/-- The cause of a failure is a node that is read. -/
inductive IsCause (root : Node) : Error → Prop
  | fault {n : Node} {f : Fault} (hn : root.Reads n) (h : n.IsFaulty) : IsCause root (.fault f)
  | value {n : Node} {e : ValueError} (hn : root.Reads n) (h : n.HasNoValue) : IsCause root (.value e)

theorem scalarValue_ne_character (n : Node) (c : Char) (position : Nat) :
    n.scalarValue ≠ .error (.character c position) := by
  have htext : n.scalarText ≠ .error (.character c position) := fun h => by
    obtain ⟨f, hf⟩ := exists_of_scalarText_error h
    cases hf
  have hlift : ∀ {α : Type} {x : Except ValueError α}, liftValue x ≠ .error (.character c position) := by
    intro α x
    cases x <;> simp [liftValue]
  intro h
  unfold scalarValue at h
  split at h
  all_goals simp only [bind_eq_error, htext, hlift, false_or, pure, Except.pure, refuse, reduceCtorEq, and_false,
    exists_false, Except.error.injEq] at h
  all_goals
    obtain ⟨text, -, h⟩ := h
    split at h <;> simp [hlift] at h

mutual

/-- What merge keys bring in is refused for faults only. -/
theorem exists_of_mergedEntries_error (mark : Mark) (entries : List (Node × Node)) {e : Error}
    (h : mergedEntries mark entries = .error e) : ∃ f, e = .fault f := by
  match entries with
  | [] =>
    rw [mergedEntries] at h
    cases h
  | (key, value) :: rest =>
    rw [mergedEntries] at h
    split at h
    · obtain h | ⟨_, -, h⟩ := bind_eq_error.1 h
      · exact exists_of_mergedFrom_error mark value h
      · obtain h | ⟨_, -, h⟩ := bind_eq_error.1 h
        · exact exists_of_mergedEntries_error mark rest h
        · cases h
    · exact exists_of_mergedEntries_error mark rest h

theorem exists_of_mergedFrom_error (mark : Mark) (n : Node) {e : Error} (h : mergedFrom mark n = .error e) :
    ∃ f, e = .fault f := by
  match n with
  | mapping head entries =>
    rw [mergedFrom] at h
    obtain h | ⟨_, -, h⟩ := bind_eq_error.1 h
    · exact exists_of_mergedEntries_error head.mark entries h
    · cases h
  | sequence _ items =>
    rw [mergedFrom] at h
    obtain h | ⟨_, -, h⟩ := bind_eq_error.1 h
    · exact exists_of_mergedItems_error mark items h
    · cases h
  | scalar _ _ =>
    rw [mergedFrom] at h
    cases h
    exact ⟨_, rfl⟩

theorem exists_of_mergedItems_error (mark : Mark) (items : List Node) {e : Error}
    (h : mergedItems mark items = .error e) : ∃ f, e = .fault f := by
  match items with
  | [] =>
    rw [mergedItems] at h
    cases h
  | mapping head entries :: rest =>
    rw [mergedItems] at h
    obtain h | ⟨_, -, h⟩ := bind_eq_error.1 h
    · exact exists_of_mergedEntries_error head.mark entries h
    · obtain h | ⟨_, -, h⟩ := bind_eq_error.1 h
      · exact exists_of_mergedItems_error mark rest h
      · cases h
  | scalar _ _ :: _ | sequence _ _ :: _ =>
    rw [mergedItems] at h
    · cases h
      exact ⟨_, rfl⟩
    · nofun

end

/-- A scalar that cannot be read is a cause. -/
theorem isCause_of_scalarValue {root n : Node} {e : Error} (hn : root.Reads n) (hparts : n.hasParts = false)
    (h : n.scalarValue = .error e) : root.IsCause e := by
  cases e with
  | character c position => exact absurd h (scalarValue_ne_character n c position)
  | fault f => exact .fault hn (.scalar hparts h)
  | value e =>
    obtain ⟨text, htext, hnot | ⟨htag, hscalar⟩⟩ := (exists_scalarValue_error_iff n).1 ⟨e, h⟩
    · exact .value hn (.text htext hnot)
    · refine .value hn (.timestamp htag ?_ htext)
      cases htext with
      | scalar => cases hscalar
      | value _ _ _ => rfl

theorem isCause_of_flatEntries {root n : Node} {e : Error} (hn : root.Reads n)
    (htag : n.head.tag = .map ∨ n.head.tag = .set) (h : n.flatEntries = .error e) : root.IsCause e := by
  cases n with
  | scalar head text =>
    rw [flatEntries] at h
    split at h
    next => cases h
    next hne =>
      cases h
      exact .value hn (.scalarEntries htag rfl (by simpa using hne))
  | sequence head items =>
    rw [flatEntries] at h
    split at h
    next => cases h
    next hne =>
      cases h
      exact .value hn (.itemEntries htag rfl (by simpa using hne))
  | mapping head entries =>
    obtain ⟨f, rfl⟩ : ∃ f, e = .fault f := by
      rw [flatEntries] at h
      obtain h | ⟨_, -, h⟩ := bind_eq_error.1 h
      · exact exists_of_mergedEntries_error _ _ h
      · cases h
    exact .fault hn (.entries htag h)

/-- An integer that is shown is one of a scalar that is tagged so. -/
theorem showsLong_of_scalarValue {n : Node} {v : Value} (h : n.scalarValue = .ok v) (hlong : v.hasLongInteger = true) :
    n.ShowsLong := by
  have hread := h
  unfold scalarValue at hread
  split at hread
  next =>
    obtain ⟨_, -, hread⟩ := bind_eq_ok.1 hread
    cases hread
    cases hlong
  next =>
    obtain ⟨_, -, hread⟩ := bind_eq_ok.1 hread
    obtain ⟨_, -, hread⟩ := bind_eq_ok.1 hread
    cases hread
    cases hlong
  next htag =>
    obtain ⟨_, -, hread⟩ := bind_eq_ok.1 hread
    obtain ⟨_, -, hread⟩ := bind_eq_ok.1 hread
    cases hread
    exact .int htag h hlong
  next =>
    obtain ⟨_, -, hread⟩ := bind_eq_ok.1 hread
    obtain ⟨_, -, hread⟩ := bind_eq_ok.1 hread
    cases hread
    cases hlong
  next =>
    obtain ⟨text, -, hread⟩ := bind_eq_ok.1 hread
    split at hread
    next =>
      unfold timestampValue at hread
      split at hread
      next => cases hread
      next =>
        split at hread <;> cases hread <;> cases hlong
    next => cases hread
  next =>
    obtain ⟨text, -, hread⟩ := bind_eq_ok.1 hread
    split at hread <;> cases hread
    cases hlong
  next =>
    obtain ⟨_, -, hread⟩ := bind_eq_ok.1 hread
    cases hread
    cases hlong
  next => cases hread

theorem hasLongInteger_part (inside : Bool) (place : Place) (v : Value) :
    (if inside = true then Value.shared place v else v).hasLongInteger = v.hasLongInteger := by
  split
  · rw [Value.hasLongInteger]
  · rfl

section ValueFrom

variable {texts : KeyTexts} {hidden : List Nat} {fuel : Nat} {inside : Bool} {n : Node}

/-- The content of a collection is shown. -/
def isShown (hidden : List Nat) (n : Node) : Bool := !(n.head.anchored && hidden.contains n.index)

theorem hasLongInteger_list_iff (htag : n.head.tag = .seq) :
    (valueFrom texts hidden (fuel + 1) inside n).hasLongInteger = true ↔ n.isShown hidden = true ∧ ∃ m ∈ n.items,
      (valueFrom texts hidden fuel (inside || n.head.anchored || n.merges) m).hasLongInteger = true := by
  simp only [valueFrom, htag, hasLongInteger_part, Value.hasLongInteger, Value.anyLongInteger_eq_any, isShown]
  cases (!(n.head.anchored && hidden.contains n.index)) <;> simp

theorem hasLongInteger_tuple (f : Node → Value) (inside : Bool) (place : Place) (o : Node × Node) :
    (if inside = true then Value.shared place (.tuple [f o.1, f o.2]) else .tuple [f o.1, f o.2]).hasLongInteger =
      ((f o.1).hasLongInteger || (f o.2).hasLongInteger) := by
  rw [hasLongInteger_part, Value.hasLongInteger, Value.anyLongInteger_eq_any]
  simp

theorem hasLongInteger_pairs_iff (htag : n.head.tag = .omap ∨ n.head.tag = .pairs) :
    (valueFrom texts hidden (fuel + 1) inside n).hasLongInteger = true ↔ n.isShown hidden = true ∧
      ∃ o ∈ n.itemPairs, ∃ m, (m = o.1 ∨ m = o.2) ∧
        (valueFrom texts hidden fuel (inside || n.head.anchored || n.merges) m).hasLongInteger = true := by
  have hany : ∀ (pairs : List (Node × Node)) (f : Node → Value) (inside : Bool) (place : Nat → Place),
      (pairs.mapIdx fun i o => if inside = true then Value.shared (place i) (.tuple [f o.1, f o.2])
        else .tuple [f o.1, f o.2]).any Value.hasLongInteger = true ↔
      ∃ o ∈ pairs, ∃ m, (m = o.1 ∨ m = o.2) ∧ (f m).hasLongInteger = true := by
    intro pairs f inside place
    rw [List.any_eq_true]
    constructor
    · rintro ⟨v, hv, hlong⟩
      obtain ⟨i, hi, rfl⟩ := List.mem_mapIdx.1 hv
      rw [hasLongInteger_tuple, Bool.or_eq_true] at hlong
      exact ⟨_, List.getElem_mem hi, hlong.elim (⟨_, .inl rfl, ·⟩) (⟨_, .inr rfl, ·⟩)⟩
    · rintro ⟨o, ho, m, hm, hlong⟩
      obtain ⟨i, hi, rfl⟩ := List.mem_iff_getElem.1 ho
      refine ⟨_, List.mem_mapIdx.2 ⟨i, hi, rfl⟩, ?_⟩
      rw [hasLongInteger_tuple, Bool.or_eq_true]
      obtain rfl | rfl := hm
      · exact .inl hlong
      · exact .inr hlong
  have hvalue : (valueFrom texts hidden (fuel + 1) inside n).hasLongInteger = true ↔
      ∃ o ∈ (if n.isShown hidden = true then n.itemPairs else []), ∃ m, (m = o.1 ∨ m = o.2) ∧
        (valueFrom texts hidden fuel (inside || n.head.anchored || n.merges) m).hasLongInteger = true := by
    rw [← hany _ _ (inside || n.head.anchored) fun i => ⟨n.index, i + 1⟩, ← Value.anyLongInteger_eq_any, isShown]
    obtain htag | htag := htag
    all_goals
      simp only [valueFrom, htag, hasLongInteger_part, Value.hasLongInteger]
  rw [hvalue]
  cases n.isShown hidden <;> simp

theorem hasLongInteger_map_iff (htag : n.head.tag = .map) :
    (valueFrom texts hidden (fuel + 1) inside n).hasLongInteger = true ↔ n.isShown hidden = true ∧
      ∃ pairs, n.flatEntries = .ok pairs ∧ ∃ (i : Nat) (o : Node × Node), pairs[i]? = some o ∧
        (∀ j p, i < j → pairs[j]? = some p → keyText texts n j p.1 ≠ keyText texts n i o.1) ∧
        (valueFrom texts hidden fuel (inside || n.head.anchored || n.merges) o.2).hasLongInteger = true := by
  have hany : ∀ (pairs : List (Node × Node)) (f : Node → Value),
      (Dictionary.ofEntries (pairs.mapIdx fun i o => (keyText texts n i o.1, f o.2))).any (·.2.hasLongInteger) = true ↔
        ∃ (i : Nat) (o : Node × Node), pairs[i]? = some o ∧
          (∀ j p, i < j → pairs[j]? = some p → keyText texts n j p.1 ≠ keyText texts n i o.1) ∧
          (f o.2).hasLongInteger = true := by
    intro pairs f
    have hget : ∀ (i : Nat) (e : String × Value),
        (pairs.mapIdx fun i o => (keyText texts n i o.1, f o.2))[i]? = some e ↔
          ∃ o, pairs[i]? = some o ∧ (keyText texts n i o.1, f o.2) = e := fun i e => by
      rw [List.getElem?_mapIdx, Option.map_eq_some_iff]
    rw [List.any_eq_true]
    constructor
    · rintro ⟨e, he, hlong⟩
      obtain ⟨i, hi, hlast⟩ := Dictionary.exists_last_of_mem_ofEntries he
      obtain ⟨o, ho, rfl⟩ := (hget i e).1 hi
      exact ⟨i, o, ho, fun j p hj hp => hlast j _ hj ((hget j _).2 ⟨p, hp, rfl⟩), hlong⟩
    · rintro ⟨i, o, ho, hlast, hlong⟩
      refine ⟨(keyText texts n i o.1, f o.2), Dictionary.mem_of_get? (Dictionary.get?_ofEntries_of_last
        ((hget i _).2 ⟨o, ho, rfl⟩) fun j e hj he => ?_), hlong⟩
      obtain ⟨p, hp, rfl⟩ := (hget j e).1 he
      exact hlast j p hj hp
  simp only [valueFrom, htag, hasLongInteger_part, Value.hasLongInteger, Value.entriesHaveLongInteger_eq_any, isShown]
  rw [hany]
  cases hshown : (!(n.head.anchored && hidden.contains n.index)) with
  | false => simp
  | true =>
    cases hflat : n.flatEntries <;> simp [Except.toOption]

theorem hasLongInteger_other_iff (htag : n.hasParts = false) :
    (valueFrom texts hidden (fuel + 1) inside n).hasLongInteger = true ↔
      ∃ v, n.scalarValue = .ok v ∧ v.hasLongInteger = true := by
  rw [valueFrom]
  dsimp only
  split
  case h_6 =>
    cases hv : n.scalarValue with
    | error e => simp [Value.hasLongInteger]
    | ok v => cases v <;> simp only [Except.ok.injEq, exists_eq_left', hasLongInteger_part]
  all_goals
    next h =>
      rw [hasParts, h] at htag
      cases htag

theorem keyText_of_name? {key : Node} {text : String} (h : key.name? = some text) (i : Nat) :
    keyText texts n i key = text := by
  cases key with
  | scalar _ _ => exact Option.some.inj h
  | sequence _ _ | mapping _ _ => cases h

/-- What a value shows is in its node. -/
theorem showsLong_of_valueFrom (h : (valueFrom texts hidden fuel inside n).hasLongInteger = true) : n.ShowsLong := by
  induction fuel generalizing inside n with
  | zero => cases h
  | succ fuel ih =>
    cases hparts : n.hasParts with
    | false =>
      obtain ⟨v, hv, hlong⟩ := (hasLongInteger_other_iff hparts).1 h
      exact showsLong_of_scalarValue hv hlong
    | true =>
      cases htag : n.head.tag with
      | seq =>
        obtain ⟨-, m, hm, hlong⟩ := (hasLongInteger_list_iff htag).1 h
        exact .item htag hm (ih hlong)
      | map =>
        obtain ⟨-, pairs, hpairs, i, o, ho, hlast, hlong⟩ := (hasLongInteger_map_iff htag).1 h
        refine .value htag hpairs ho (fun text htext j p hj hp hname => hlast j p hj hp ?_) (ih hlong)
        rw [keyText_of_name? htext, keyText_of_name? hname]
      | omap =>
        obtain ⟨-, o, ho, m, hm, hlong⟩ := (hasLongInteger_pairs_iff (.inl htag)).1 h
        exact .pair (.inl htag) ho hm (ih hlong)
      | pairs =>
        obtain ⟨-, o, ho, m, hm, hlong⟩ := (hasLongInteger_pairs_iff (.inr htag)).1 h
        exact .pair (.inr htag) ho hm (ih hlong)
      | set =>
        simp only [valueFrom, htag, hasLongInteger_part] at h
        cases h
      | _ =>
        rw [hasParts, htag] at hparts
        cases hparts

end ValueFrom

/-- A computation for a document ends well, or with a cause that is in the document. -/
def EndsWith {α : Type} (root : Node) (P : α → Prop) (x : Except Error α) : Prop :=
  (∀ a, x = .ok a → P a) ∧ ∀ e, x = .error e → root.IsCause e

section EndsWith

variable {α β : Type} {root : Node} {P : α → Prop} {Q : β → Prop}

theorem endsWith_ok {a : α} (h : P a) : root.EndsWith P (.ok a) :=
  ⟨fun _ ha => Except.ok.inj ha ▸ h, fun _ he => by cases he⟩

theorem endsWith_error {e : Error} (h : root.IsCause e) : root.EndsWith P (.error e) :=
  ⟨fun _ ha => (by cases ha), fun _ he => Except.error.inj he ▸ h⟩

theorem EndsWith.bind {x : Except Error α} {f : α → Except Error β} (h : root.EndsWith P x)
    (hf : ∀ a, P a → root.EndsWith Q (f a)) : root.EndsWith Q (x >>= f) := by
  cases x with
  | ok a => exact hf a (h.1 a rfl)
  | error e => exact endsWith_error (h.2 e rfl)

theorem EndsWith.foldlM {f : α → β → Except Error α} {xs : List β} {a : α} (ha : P a)
    (hf : ∀ a x, P a → x ∈ xs → root.EndsWith P (f a x)) : root.EndsWith P (xs.foldlM f a) := by
  induction xs generalizing a with
  | nil => exact endsWith_ok ha
  | cons x xs ih =>
    rw [List.foldlM_cons]
    exact (hf a x ha List.mem_cons_self).bind fun b hb => ih hb fun c y hc hy => hf c y hc (List.mem_cons_of_mem _ hy)

end EndsWith

namespace Progress

variable {root : Node}

/-- The nodes that wait are collections, and they are read. -/
def WaitsWithin (root : Node) (p : Progress) : Prop := ∀ n ∈ p.waiting, root.Reads n ∧ n.hasParts = true

theorem WaitsWithin.note {p : Progress} (h : p.WaitsWithin root) (n : Node) : (p.note n).WaitsWithin root := by
  unfold Progress.note
  split <;> exact h

variable (root) in
/-- With some fuel, whatever is read of the document ends well, or with a cause in the document. -/
structure ReadsWith (fuel : Nat) : Prop where
  meet : ∀ deep p n, WaitsWithin root p → root.Reads n → root.EndsWith (WaitsWithin root) (Progress.meet fuel deep p n)
  fill : ∀ deep p n, WaitsWithin root p → root.Reads n → n.hasParts = true →
    root.EndsWith (WaitsWithin root) (Progress.fill fuel deep p n)
  fillPairs : ∀ deep context p n, WaitsWithin root p → root.Reads n → n.head.tag = .omap ∨ n.head.tag = .pairs →
    root.EndsWith (WaitsWithin root) (Progress.fillPairs fuel deep context p n)

theorem ReadsWith.meet_succ {fuel : Nat} (h : ReadsWith root fuel) (deep : Bool) {p : Progress} {n : Node}
    (hp : p.WaitsWithin root) (hn : root.Reads n) :
      root.EndsWith (WaitsWithin root) (Progress.meet (fuel + 1) deep p n) := by
  rw [Progress.meet]
  split
  next henclosing => exact endsWith_error (.fault hn (.enclosing henclosing))
  split
  next hparts =>
    rw [Bool.not_eq_true'] at hparts
    cases hv : n.scalarValue with
    | error e => exact endsWith_error (isCause_of_scalarValue hn hparts hv)
    | ok v => exact endsWith_ok hp
  next hparts =>
    rw [Bool.not_eq_true', Bool.not_eq_false] at hparts
    split
    · exact endsWith_ok hp
    split
    · exact h.fill true _ n (hp.note n) hn hparts
    · exact endsWith_ok (List.forall_mem_cons.2 ⟨⟨hn, hparts⟩, hp⟩)

theorem mem_itemPairs {n : Node} {head : NodeHead} {pair : Node × Node} (h : .mapping head [pair] ∈ n.items) :
    pair ∈ n.itemPairs :=
  List.mem_filterMap.2 ⟨_, h, rfl⟩

theorem ReadsWith.fillPairs_succ {fuel : Nat} (h : ReadsWith root fuel) (deep : Bool) (context : Context) {p : Progress}
    {n : Node} (hp : p.WaitsWithin root) (hn : root.Reads n) (htag : n.head.tag = .omap ∨ n.head.tag = .pairs) :
    root.EndsWith (WaitsWithin root) (Progress.fillPairs (fuel + 1) deep context p n) := by
  rw [Progress.fillPairs.eq_def]
  dsimp only
  split
  next whole items =>
    refine EndsWith.foldlM hp fun p item hp hitem => ?_
    split
    next head key value =>
      have hpair : (key, value) ∈ (sequence whole items).itemPairs := mem_itemPairs hitem
      exact (h.meet deep p key hp (hn.tail (.pair htag hpair (.inl rfl)))).bind fun q hq =>
        h.meet deep q value hq (hn.tail (.pair htag hpair (.inr rfl)))
    next hnot =>
      refine endsWith_error (.fault hn (.pairs htag fun hlists => ?_))
      obtain ⟨head, pair, heq⟩ := hlists.2 _ hitem
      cases heq
      exact hnot _ _ rfl
    next hnot =>
      refine endsWith_error (.fault hn (.pairs htag fun hlists => ?_))
      obtain ⟨head, pair, rfl⟩ := hlists.2 _ hitem
      exact hnot _ _ rfl
  next hnot =>
    refine endsWith_error (.fault hn (.pairs htag fun hlists => ?_))
    cases n with
    | sequence head items => exact hnot head items rfl
    | scalar _ _ | mapping _ _ => cases hlists.1

theorem ReadsWith.fill_succ {fuel : Nat} (h : ReadsWith root fuel) (deep : Bool) {p : Progress} {n : Node}
    (hp : p.WaitsWithin root) (hn : root.Reads n) (hparts : n.hasParts = true) :
      root.EndsWith (WaitsWithin root) (Progress.fill (fuel + 1) deep p n) := by
  have hreveal : ∀ {q : Progress}, q.WaitsWithin root → root.EndsWith (WaitsWithin root) (.ok (q.reveal n)) :=
    fun hq => endsWith_ok hq
  rw [Progress.fill.eq_def]
  dsimp only
  split
  next htag =>
    split
    next items =>
      exact (EndsWith.foldlM hp fun p item hp hitem => h.meet deep p item hp (hn.tail (.item htag hitem))).bind
        fun q hq => hreveal hq
    next hnot =>
      refine endsWith_error (.fault hn (.sequence htag fun hkind => ?_))
      cases n with
      | sequence head items => exact hnot head items rfl
      | scalar _ _ | mapping _ _ => cases hkind
  next htag => exact (h.fillPairs deep .orderedMap p n hp hn (.inl htag)).bind fun q hq => hreveal hq
  next htag => exact (h.fillPairs deep .pairs p n hp hn (.inr htag)).bind fun q hq => hreveal hq
  next hseq homap hpairs =>
    have htag : n.head.tag = .map ∨ n.head.tag = .set :=
      ((hasParts_iff.1 hparts).resolve_left hseq).resolve_left (not_or.2 ⟨homap, hpairs⟩)
    cases hflat : n.flatEntries with
    | error e => exact endsWith_error (isCause_of_flatEntries hn htag hflat)
    | ok pairs =>
      refine EndsWith.bind (P := fun x : Progress × Nat => x.1.WaitsWithin root)
        (EndsWith.foldlM hp fun x o hx ho => ?_)
        fun x hx => hreveal hx
      have hnext : ∀ {q : Progress}, q.WaitsWithin root → root.EndsWith (fun y : Progress × Nat => y.1.WaitsWithin root)
          (Progress.meet fuel deep q o.2 >>= fun q => .ok (q, x.2 + 1)) := fun {q} hq =>
        (h.meet deep q o.2 hq (hn.tail (.value htag hflat ho))).bind fun q hq => endsWith_ok hq
      split
      next => exact hnext hx
      next hkey =>
        have hname : o.1.name? = none := name?_eq_none hkey
        refine (h.meet true x.1 o.1 hx (hn.tail (.key htag hflat ho hname))).bind fun q hq => ?_
        split
        next hlong => exact endsWith_error (.value hn (.longKey htag hflat ho hname (showsLong_of_valueFrom hlong)))
        next => exact hnext (q := { q with keys := _ }) hq

theorem readsWith (fuel : Nat) : ReadsWith root fuel := by
  induction fuel with
  | zero =>
    refine ⟨fun deep p n hp _ => ?_, fun deep p n hp _ _ => ?_, fun deep context p n hp _ _ => ?_⟩
    · rw [Progress.meet]
      exact endsWith_ok hp
    · rw [Progress.fill]
      exact endsWith_ok hp
    · rw [Progress.fillPairs]
      exact endsWith_ok hp
  | succ fuel ih => exact ⟨fun deep _ _ => ih.meet_succ deep, fun deep _ _ => ih.fill_succ deep,
      fun deep context _ _ => ih.fillPairs_succ deep context⟩

end Progress

end NoteVault.Yaml.Node
