import NoteVault.Proofs.Dictionary
import NoteVault.Proofs.Failure
import NoteVault.Proofs.Number.Rounding
import NoteVault.Proofs.Value.Normal
import NoteVault.Proofs.Yaml.Node.Stands
import NoteVault.Proofs.Yaml.Written
import NoteVault.Yaml.Node.Value

/-!
The values that documents stand for: doubles are rounded, keys and members stand there once, and objects are
collections, dates or points in time.
-/
namespace NoteVault

namespace Value

/-- The values that can be objects of their own. -/
def isObject : Value → Bool
  | list _ | tuple _ | map _ | set _ | date _ | datetime _ => true
  | _ => false

/-- A value as documents give it. -/
inductive IsLoaded : Value → Prop
  | scalar {v : Value} (h : Yaml.isSimple v = true) (hfloat : ∀ x, v = float x → x.IsCanonical) : IsLoaded v
  | list {items : List Value} (h : ∀ v ∈ items, IsLoaded v) : IsLoaded (list items)
  | tuple {items : List Value} (h : ∀ v ∈ items, IsLoaded v) : IsLoaded (tuple items)
  | map {entries : List (String × Value)} (hkeys : (Dictionary.keys entries).Nodup) (h : ∀ e ∈ entries, IsLoaded e.2) :
    IsLoaded (map entries)
  | set {members : List String} (h : members.Pairwise (· < ·)) : IsLoaded (set members)
  | shared {place : Place} {v : Value} (hobject : v.isObject = true) (h : IsLoaded v) : IsLoaded (shared place v)

theorem isLoaded_str (s : String) : (str s).IsLoaded := .scalar rfl nofun

theorem isLoaded_null : null.IsLoaded := .scalar rfl (by simp)

theorem isLoaded_map {entries : List (String × Value)} :
    (map entries).IsLoaded ↔ (Dictionary.keys entries).Nodup ∧ ∀ e ∈ entries, e.2.IsLoaded := by
  refine ⟨fun h => ?_, fun h => .map h.1 h.2⟩
  cases h with
  | scalar hsimple _ => cases hsimple
  | map hkeys h => exact ⟨hkeys, h⟩

theorem keys_map_snd (f : Value → Value) (entries : List (String × Value)) :
    Dictionary.keys (entries.map fun (k, v) => (k, f v)) = Dictionary.keys entries :=
  Dictionary.keys_map (fun _ => f) entries

theorem IsLoaded.normal {v : Value} (h : v.IsLoaded) : v.normal.IsLoaded := by
  induction h with
  | @scalar v h hfloat =>
    cases v with
    | str _ | date _ | datetime _ => exact isLoaded_str _
    | list _ | tuple _ | map _ | set _ | shared _ _ => cases h
    | _ => exact .scalar h hfloat
  | list h ih =>
    rw [normal_list]
    exact .list (List.forall_mem_map.2 ih)
  | tuple h => exact .tuple h
  | map hkeys h ih =>
    rw [normal_map, normalEntries_eq_map]
    exact .map (by rwa [keys_map_snd]) (List.forall_mem_map.2 ih)
  | set h => exact .set h
  | @shared place v hobject h ih =>
    cases v with
    | list items =>
      rw [normal_sharedList, ← normal_list]
      exact ih
    | map entries =>
      rw [normal_sharedMap, ← normal_map]
      exact ih
    | date _ | datetime _ => exact isLoaded_str _
    | tuple _ | set _ => exact .shared hobject h
    | _ => cases hobject

theorem IsLoaded.asWritten {v : Value} (h : v.IsLoaded) : v.asWritten.IsLoaded := by
  induction h with
  | @scalar v h hfloat =>
    cases v with
    | list _ | tuple _ | map _ | set _ | shared _ _ => cases h
    | _ => exact .scalar h hfloat
  | list h ih | tuple h ih =>
    rw [Value.asWritten, asWrittenItems_eq_map]
    exact .list (List.forall_mem_map.2 ih)
  | map hkeys h ih =>
    rw [Value.asWritten, asWrittenEntries_eq_map]
    exact .map (by rwa [keys_map_snd]) (List.forall_mem_map.2 ih)
  | set h => exact .set h
  | @shared place v hobject h ih =>
    by_cases hset : (Value.shared place v).isSetObject = true
    · rw [asWritten_setObject hset]
      exact .shared hobject h
    · rwa [asWritten_shared (Bool.not_eq_true _ ▸ hset)]

end Value

namespace Yaml

open Value (IsLoaded)

theorem isCanonical_readDecimal? {negative : Bool} {s : List Char} {x : Binary64}
    (h : Number.readDecimal? negative s = some x) : x.IsCanonical := by
  unfold Number.readDecimal? at h
  dsimp only at h
  repeat' split at h
  all_goals
    simp only [Option.failure_eq_none, Option.bind_eq_bind, Option.bind_none, reduceCtorEq, Option.bind_eq_some_iff,
      Option.some.injEq] at h
  all_goals
    obtain ⟨e, -, rfl⟩ := h
    exact Binary64.isCanonical_ofDecimal _ _ _

theorem isCanonical_decimal {s : List Char} {x : Binary64} (h : decimal s = .ok x) : x.IsCanonical := by
  unfold decimal at h
  split at h
  next y hread =>
    cases h
    unfold Number.readFloat? at hread
    simp only [Option.bind_eq_bind, Option.bind_eq_some_iff] at hread
    obtain ⟨body, -, hread⟩ := hread
    split at hread
    · cases hread
      trivial
    · split at hread
      · cases hread
        trivial
      · exact isCanonical_readDecimal? hread
  next => cases h

theorem isCanonical_weighted {parts : List Binary64} {weight : Int} {sum x : Binary64}
    (h : weighted weight sum parts = .ok x)
    (hsum : sum.IsCanonical) : x.IsCanonical := by
  induction parts generalizing weight sum with
  | nil =>
    cases h
    exact hsum
  | cons y parts ih =>
    rw [weighted] at h
    split at h
    · cases h
    · exact ih h (Binary64.isCanonical_add _ _)

theorem isCanonical_floatMagnitude {s : List Char} {x : Binary64} (h : floatMagnitude s = .ok x) : x.IsCanonical := by
  unfold floatMagnitude at h
  split at h
  · cases h
    trivial
  split at h
  · cases h
    trivial
  split at h
  · obtain ⟨parts, -, h⟩ := bind_eq_ok.1 h
    exact isCanonical_weighted h (Binary64.isCanonical_zero false)
  · exact isCanonical_decimal h

theorem isCanonical_floatValue {text : String} {x : Binary64} (h : floatValue text = .ok x) : x.IsCanonical := by
  obtain ⟨⟨negative, body⟩, -, h⟩ := bind_eq_ok.1 h
  obtain ⟨y, hy, h⟩ := bind_eq_ok.1 h
  cases h
  have hcanonical := isCanonical_floatMagnitude hy
  split
  · exact hcanonical.neg
  · exact hcanonical

namespace Node

theorem mem_insertMember {s t : String} {members : List String} : t ∈ insertMember s members ↔ t = s ∨ t ∈ members := by
  induction members with
  | nil => simp [insertMember]
  | cons m members ih =>
    rw [insertMember]
    split
    next h => simp [h]
    next =>
      split
      · rw [List.mem_cons]
      · simp only [List.mem_cons, ih]
        tauto

theorem mem_foldl_insertMember {names members : List String} {name : String} :
    name ∈ names.foldl (fun s m => insertMember m s) members ↔ name ∈ members ∨ name ∈ names := by
  induction names generalizing members with
  | nil => simp
  | cons m names ih =>
    rw [List.foldl_cons, ih, mem_insertMember, List.mem_cons]
    tauto

theorem sorted_insertMember (s : String) {members : List String} (h : members.Pairwise (· < ·)) :
    (insertMember s members).Pairwise (· < ·) := by
  induction members with
  | nil => simp [insertMember]
  | cons m members ih =>
    obtain ⟨hm, hmembers⟩ := List.pairwise_cons.1 h
    rw [insertMember]
    split
    · exact h
    next hne =>
      split
      next hlt =>
        refine List.pairwise_cons.2 ⟨fun t ht => ?_, h⟩
        obtain rfl | ht := List.mem_cons.1 ht
        · exact hlt
        · exact String.lt_trans hlt (hm t ht)
      next hnot =>
        refine List.pairwise_cons.2 ⟨fun t ht => ?_, ih hmembers⟩
        obtain rfl | ht := mem_insertMember.1 ht
        · exact not_not.1 fun hnot' => hne (String.le_antisymm (String.not_lt.1 hnot') (String.not_lt.1 hnot))
        · exact hm t ht

theorem sorted_foldl_insertMember {texts members : List String} (h : members.Pairwise (· < ·)) :
    (texts.foldl (fun s m => insertMember m s) members).Pairwise (· < ·) := by
  induction texts generalizing members with
  | nil => exact h
  | cons t texts ih => exact ih (sorted_insertMember t h)

theorem isSimple_timestampValue {text : String} {v : Value} (h : timestampValue text = .ok v) : isSimple v = true := by
  unfold timestampValue at h
  split at h
  · cases h
  · split at h <;> cases h <;> rfl

/-- A scalar stands for a value without parts. -/
theorem isSimple_scalarValue {n : Node} {v : Value} (h : n.scalarValue = .ok v) : isSimple v = true := by
  unfold scalarValue at h
  split at h
  case h_5 =>
    cases htext : n.scalarText with
    | error e => simp [htext, bind, Except.bind] at h
    | ok text =>
      simp only [htext, bind, Except.bind] at h
      split at h
      · cases ht : timestampValue text with
        | error e => simp [ht, liftValue] at h
        | ok w =>
          rw [ht] at h
          cases h
          exact isSimple_timestampValue ht
      · cases h
  all_goals
    simp only [bind, Except.bind, pure, Except.pure, refuse] at h
    repeat' split at h
    all_goals cases h
    all_goals rfl

theorem isLoaded_scalarValue {n : Node} {v : Value} (h : n.scalarValue = .ok v) : v.IsLoaded := by
  refine .scalar (isSimple_scalarValue h) ?_
  rintro x rfl
  unfold scalarValue at h
  split at h
  case h_4 =>
    simp only [bind_eq_ok] at h
    obtain ⟨text, -, y, hy, h⟩ := h
    cases h
    unfold liftValue at hy
    split at hy
    next hfloat =>
      cases hy
      exact isCanonical_floatValue hfloat
    next => cases hy
  case h_5 =>
    simp only [bind_eq_ok] at h
    obtain ⟨text, -, h⟩ := h
    split at h
    · unfold liftValue timestampValue at h
      split at h
      next hv =>
        split at hv
        · cases hv
        · split at hv <;> cases hv <;> cases h
      next => cases h
    · cases h
  all_goals
    simp only [bind, Except.bind, pure, Except.pure, refuse] at h
    repeat' split at h
    all_goals cases h

/-- A node stands for a value as documents give it. -/
theorem isLoaded_valueFrom (keys : KeyTexts) (hidden : List Nat) (fuel : Nat) (inside : Bool) (n : Node) :
    (valueFrom keys hidden fuel inside n).IsLoaded := by
  induction fuel generalizing inside n with
  | zero => exact Value.isLoaded_null
  | succ fuel ih =>
    have hpart : ∀ {inside : Bool} {place : Place} {v : Value}, v.isObject = true → v.IsLoaded →
        (if inside = true then Value.shared place v else v).IsLoaded := by
      intro inside place v hobject h
      split
      · exact .shared hobject h
      · exact h
    unfold valueFrom
    dsimp only
    split
    · refine hpart rfl (.list fun v hv => ?_)
      split at hv
      · obtain ⟨m, -, rfl⟩ := List.mem_map.1 hv
        exact ih _ m
      · cases hv
    · refine hpart rfl (.map ?_ fun e he => ?_)
      · rw [Dictionary.keys_ofEntries]
        exact Text.firstOccurrences_nodup _
      · obtain ⟨i, hi, rfl⟩ := List.mem_mapIdx.1 (Dictionary.mem_of_mem_ofEntries he)
        exact ih _ _
    · exact hpart rfl (.set (sorted_foldl_insertMember .nil))
    iterate 2
      · refine hpart rfl (.list fun v hv => ?_)
        obtain ⟨i, hi, rfl⟩ := List.mem_mapIdx.1 hv
        refine hpart rfl (.tuple ?_)
        simp only [List.forall_mem_cons, List.not_mem_nil, false_implies, implies_true, and_true]
        exact ⟨ih _ _, ih _ _⟩
    · split
      · exact hpart rfl (.scalar rfl (by simp))
      · exact hpart rfl (.scalar rfl (by simp))
      next hv => exact isLoaded_scalarValue hv
      · exact .scalar rfl (by simp)

end Node

theorem isLoaded_read {text : String} {v : Value} (h : read text = .ok v) : v.IsLoaded := by
  unfold read at h
  rw [bind_eq_ok] at h
  obtain ⟨root, -, h⟩ := h
  cases root with
  | none =>
    cases h
    exact .scalar rfl nofun
  | some root =>
    simp only [Node.toValue, bind_eq_ok] at h
    obtain ⟨_, -, _, -, h⟩ := h
    cases h
    exact Node.isLoaded_valueFrom _ _ _ _ _

end Yaml

end NoteVault
