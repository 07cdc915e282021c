/-!
Wiki links: a text between two pairs of brackets and without brackets inside.
-/
namespace NoteVault.WikiLink

def isBracket (c : Char) : Bool := c = '[' || c = ']'

/-- The target of a text that is a link as a whole. -/
def target? (s : List Char) : Option (List Char) :=
  match s with
  | '[' :: '[' :: rest =>
    let inner := rest.takeWhile (!isBracket ·)
    if !inner.isEmpty && rest.drop inner.length = [']', ']'] then some inner else none
  | _ => none

/-- The text is a link as a whole. -/
def isLink (s : String) : Bool := (target? s.toList).isSome

/-- The target of a link; any other text is returned as it is. -/
def unwrap (s : String) : String :=
  match target? s.toList with
  | some inner => String.ofList inner
  | none => s

/-- A link to a text; a link is returned as it is. -/
def wrap (s : String) : String := if isLink s then s else "[[" ++ s ++ "]]"

theorem take_append_drop_takeWhile {p : Char → Bool} (s : List Char) :
    s.takeWhile p ++ s.drop (s.takeWhile p).length = s := by
  induction s with
  | nil => rfl
  | cons c rest ih => by_cases h : p c <;> simp [List.takeWhile, h, ih]

theorem target?_eq_some {s t : List Char} :
    target? s = some t ↔ s = '[' :: '[' :: t ++ [']', ']'] ∧ t ≠ [] ∧ ∀ c ∈ t, isBracket c = false := by
  constructor
  · intro h
    unfold target? at h
    split at h
    next rest =>
      simp only [Bool.and_eq_true, decide_eq_true_eq, Bool.not_eq_true', List.isEmpty_eq_false_iff] at h
      split at h
      next hc =>
        obtain ⟨hne, hd⟩ := hc
        simp only [Option.some.injEq] at h
        subst h
        refine ⟨?_, hne, ?_⟩
        · have hsplit : rest = rest.takeWhile (fun c => !isBracket c) ++ [']', ']'] := by
            rw [← hd]
            exact (take_append_drop_takeWhile rest).symm
          rw [List.cons_append, List.cons_append, ← hsplit]
        · intro c hc
          have := List.all_eq_true.1 (List.all_takeWhile (p := fun c => !isBracket c) (l := rest)) c hc
          simpa using this
      next => simp at h
    next => simp at h
  · rintro ⟨rfl, hne, hall⟩
    have ht : (t ++ [']', ']']).takeWhile (fun c => !isBracket c) = t := by
      rw [List.takeWhile_append_of_pos (by simpa using hall)]
      simp [isBracket]
    simp [target?, ht, hne]

example : unwrap "[[a b]]" = "a b" ∧ unwrap "[[a[b]]" = "[[a[b]]" ∧ wrap "x" = "[[x]]" := by decide +kernel

end NoteVault.WikiLink
