import NoteVault.Proofs.Note.Keys
import NoteVault.Proofs.Repair.Written
import NoteVault.Proofs.Yaml.Node.Placed
import NoteVault.Proofs.Yaml.Restores.Float
import NoteVault.Proofs.Yaml.Restores.Octets

/-!
Front matter that is read is read back from what is written for it, but for tuples, which are written as lists, and
for texts and keys that are written so that they read as other ones.
-/
namespace NoteVault

namespace Yaml

instance (asKey : Bool) (s : String) : Decidable (IsKept asKey s) := by
  delta IsKept
  infer_instance

/-- A key is read back, and if it is simple, its written form is not too long for that. -/
def isKeptKey (k : String) : Bool :=
  IsKept (Content.isSimpleKey k.toList) k &&
    (!Content.isSimpleKey k.toList || (Form.scalar 2 true .str (Content.wishOf k) k.toList).length ≤ 1024)

theorem isKey_of_kept {k : String} (h : isKeptKey k = true) : Content.IsKey k := by
  rw [isKeptKey, Bool.and_eq_true, decide_eq_true_eq, Bool.or_eq_true, Bool.not_eq_true', decide_eq_true_eq] at h
  exact ⟨isReadable_str h.1, fun hsimple => h.2.resolve_left (by simp [hsimple])⟩

end Yaml

namespace Value

open Yaml (IsKept isKeptKey)

mutual

/-- Texts, keys and members in the value are read back as they are, and no tuple is in it. -/
def isKept : Value → Bool
  | str s => IsKept false s
  | list items => areKept items
  | tuple _ => false
  | map entries => entriesAreKept entries
  | set members => members.all isKeptKey
  | shared _ v => isKept v
  | _ => true

def areKept : List Value → Bool
  | [] => true
  | v :: rest => isKept v && areKept rest

def entriesAreKept : List (String × Value) → Bool
  | [] => true
  | (k, v) :: rest => isKeptKey k && isKept v && entriesAreKept rest

end

theorem areKept_eq_all (items : List Value) : areKept items = items.all isKept := by
  induction items with
  | nil => rfl
  | cons v rest ih => rw [areKept, ih, List.all_cons]

theorem entriesAreKept_eq_all (entries : List (String × Value)) :
    entriesAreKept entries = entries.all fun e => isKeptKey e.1 && isKept e.2 := by
  induction entries with
  | nil => rfl
  | cons e rest ih => rw [entriesAreKept, ih, List.all_cons]

end Value

namespace Yaml

open Value (IsLoaded)

theorem areMembers_of_kept {members : List String} (hsorted : members.Pairwise (· < ·))
    (hkept : members.all isKeptKey = true) : AreMembers members :=
  ⟨hsorted, fun k hk => isKey_of_kept (List.all_eq_true.1 hkept k hk)⟩

/-- What documents give is read back in normal form, where texts are kept and integers can be written. -/
theorem readsBack_of_loaded {v : Value} (h : v.IsLoaded) (hnormal : v.IsNormal) (hkept : v.isKept = true)
    (hshort : v.hasLongInteger = false) : ReadsBack v := by
  induction h with
  | @scalar v hsimple hfloat =>
    cases v with
    | null => exact restores_null
    | bool b => exact restores_bool b
    | int n => exact restores_int hshort
    | float x => exact restores_float (hfloat x rfl)
    | str s => exact restores_str (of_decide_eq_true hkept)
    | bytes octets => exact restores_bytes octets
    | date _ | datetime _ => cases hnormal
    | tuple _ => cases hkept
    | list _ | map _ | set _ | shared _ _ => cases hsimple
  | @list items _ ih =>
    rw [Value.isNormal_list] at hnormal
    rw [Value.isKept, Value.areKept_eq_all, List.all_eq_true] at hkept
    rw [Value.hasLongInteger, Value.anyLongInteger_eq_any, List.any_eq_false] at hshort
    exact itemsReadBack_iff.2 fun v hv => ih v hv (hnormal v hv) (hkept v hv) (by simpa using hshort v hv)
  | tuple _ => cases hkept
  | @map entries hkeys _ ih =>
    rw [Value.isNormal_map] at hnormal
    rw [Value.isKept, Value.entriesAreKept_eq_all, List.all_eq_true] at hkept
    rw [Value.hasLongInteger, Value.entriesHaveLongInteger_eq_any, List.any_eq_false] at hshort
    refine ⟨hkeys, entriesReadBack_iff.2 fun e he => ?_⟩
    obtain ⟨hkey, hvalue⟩ := Bool.and_eq_true_iff.1 (hkept e he)
    exact ⟨isKey_of_kept hkey, ih e he (hnormal e he) hvalue (by simpa using hshort e he)⟩
  | set hsorted => exact areMembers_of_kept hsorted hkept
  | @shared place v hobject hloaded ih =>
    cases hloaded with
    | set hsorted => exact ⟨_, rfl, areMembers_of_kept hsorted hkept⟩
    | tuple _ => cases hkept
    | list _ =>
      rw [Value.IsNormal, Value.normal_sharedList] at hnormal
      cases hnormal
    | map _ _ =>
      rw [Value.IsNormal, Value.normal_sharedMap] at hnormal
      cases hnormal
    | shared _ _ => cases hobject
    | scalar hsimple _ =>
      cases v with
      | date _ | datetime _ => cases hnormal
      | tuple _ => cases hkept
      | list _ | map _ | set _ => cases hsimple
      | _ => cases hobject

end Yaml

namespace Note

open Value (IsLoaded)

variable {content : String} {note : Note} {m : Mapping}

/-- Front matter that is read is a value as documents give it. -/
theorem isLoaded_of_parse (h : parse content = .ok note) (hm : note.data = some m) : IsLoaded (.map m) := by
  obtain ⟨v, entries, -, hread, hentries, rfl⟩ := exists_of_parse h hm
  have hloaded := Yaml.isLoaded_read hread
  rw [← Value.normal_map]
  refine IsLoaded.normal ?_
  unfold mappingOf? at hentries
  split at hentries <;> cases hentries
  · exact .map List.nodup_nil (List.forall_mem_nil _)
  · exact hloaded
  next =>
    cases hloaded with
    | scalar hsimple _ => cases hsimple
    | shared _ h => exact h

/-- Front matter that is read is read back, where texts are kept and integers can be written. -/
theorem readsBack_of_parse (h : parse content = .ok note) (hm : note.data = some m)
    (hkept : (Value.map m).isKept = true) (hshort : Value.entriesHaveLongInteger m = false) : Yaml.ReadsBack (.map m) :=
  Yaml.readsBack_of_loaded (isLoaded_of_parse h hm) (Value.isNormal_map.2 (isNormal_of_parse h hm)) hkept hshort

end Note

end NoteVault
