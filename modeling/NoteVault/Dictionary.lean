/-!
Dictionaries as lists of entries in the order in which their keys were first given.
-/
namespace NoteVault

/-- Entries of a text and a value, in order. -/
abbrev Dictionary (α : Type) := List (String × α)

namespace Dictionary

variable {α : Type}

/-- The value of a key. -/
def get? (m : Dictionary α) (key : String) : Option α := m.lookup key

def keys (m : Dictionary α) : List String := m.map (·.1)

def values (m : Dictionary α) : List α := m.map (·.2)

def has (m : Dictionary α) (key : String) : Bool := m.any (·.1 == key)

/-- Gives a key its value; a key that is there keeps its position, a new one comes last. -/
def put (m : Dictionary α) (key : String) (value : α) : Dictionary α :=
  match m with
  | [] => [(key, value)]
  | (k, v) :: rest => if k == key then (k, value) :: rest else (k, v) :: put rest key value

/-- The entries with a key other than the given one. -/
def erase (m : Dictionary α) (key : String) : Dictionary α := m.filter (·.1 != key)

/-- The dictionary that entries given one after another build up. -/
def ofEntries (entries : List (String × α)) : Dictionary α :=
  entries.foldl (fun m (key, value) => put m key value) []

/-- Adds an item to the end of a key's list. -/
def push (m : Dictionary (List α)) (key : String) (item : α) : Dictionary (List α) :=
  put m key ((get? m key).getD [] ++ [item])

theorem get?_put (m : Dictionary α) (key other : String) (value : α) :
    get? (put m key value) other = if other = key then some value else get? m other := by
  induction m with
  | nil => by_cases h : other = key <;> simp [put, get?, h]
  | cons e rest ih =>
    obtain ⟨k, v⟩ := e
    simp only [put, get?] at ih ⊢
    by_cases ho : other = k
    · subst ho
      by_cases hk : other = key <;> simp [hk]
    · have hb : (other == k) = false := beq_eq_false_iff_ne.2 ho
      by_cases hk : k = key
      · subst hk
        simp [List.lookup_cons, hb, ho]
      · simp [List.lookup_cons, hk, hb, ih]

theorem keys_put (m : Dictionary α) (key : String) (value : α) :
    keys (put m key value) = if key ∈ keys m then keys m else keys m ++ [key] := by
  induction m with
  | nil => simp [put, keys]
  | cons e rest ih =>
    obtain ⟨k, v⟩ := e
    by_cases hk : k = key
    · simp [put, keys, hk]
    · have hk' : ¬ key = k := fun h => hk h.symm
      have hp : put ((k, v) :: rest) key value = (k, v) :: put rest key value := by simp [put, hk]
      rw [hp]
      change k :: keys (put rest key value) = _
      rw [ih]
      by_cases hm : key ∈ keys rest <;> simp_all [keys]

theorem keys_put_nodup {m : Dictionary α} (h : (keys m).Nodup) (key : String) (value : α) :
    (keys (put m key value)).Nodup := by
  rw [keys_put]
  split
  · exact h
  next hk =>
    refine List.nodup_append.2 ⟨h, by simp, ?_⟩
    intro a ha b hb
    simp only [List.mem_singleton] at hb
    subst hb
    exact fun hab => hk (hab ▸ ha)

example : ofEntries [("a", 1), ("b", 2), ("a", 3)] = [("a", 3), ("b", 2)] := by decide

end Dictionary

end NoteVault
