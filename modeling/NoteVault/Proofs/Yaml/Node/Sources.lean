import NoteVault.Proofs.Yaml.Node.Merge

/-!
Where the entries of a mapping come from once its merge keys are expanded. Every entry has a source in the mapping, and
of two entries the one whose source beats the other stands behind it.
-/
namespace NoteVault.Yaml.Node

/-- One of a mapping's own entries, or an entry of the mapping under one of its merge keys, or of a mapping in a list
there. -/
inductive Source where
  | own (entry : Nat)
  | merged (entry : Nat) (item : Option Nat) (inner : Source)
  deriving DecidableEq

/-- The entries of a mapping as they are written. -/
def entries : Node → List (Node × Node)
  | mapping _ entries => entries
  | _ => []

mutual

/-- An entry with its source in the entries of a mapping. -/
inductive Gives : List (Node × Node) → Source → Node × Node → Prop
  | own {entries : List (Node × Node)} {i : Nat} {pair : Node × Node} (hi : entries[i]? = some pair)
    (hkey : pair.1.isMergeKey = false) : Gives entries (.own i) pair
  | merged {entries : List (Node × Node)} {i : Nat} {key value : Node} {item : Option Nat} {s : Source}
    {pair : Node × Node}
    (hi : entries[i]? = some (key, value)) (hkey : key.isMergeKey = true) (h : Brings value item s pair) :
    Gives entries (.merged i item s) pair

/-- An entry with its source in the value of a merge key. -/
inductive Brings : Node → Option Nat → Source → Node × Node → Prop
  | mapping {head : NodeHead} {entries : List (Node × Node)} {s : Source} {pair : Node × Node}
    (h : Gives entries s pair) :
    Brings (mapping head entries) none s pair
  | item {head head' : NodeHead} {items : List Node} {a : Nat} {entries : List (Node × Node)} {s : Source}
    {pair : Node × Node} (ha : items[a]? = some (.mapping head' entries)) (h : Gives entries s pair) :
    Brings (sequence head items) (some a) s pair

end

namespace Source

/-- Own entries beat merged ones and those before them. Of merged entries those of a later merge key win, of one list
those of an earlier mapping, and of one mapping those that win in it. -/
inductive Beats : Source → Source → Prop
  | later {i j : Nat} (h : i < j) : Beats (own j) (own i)
  | own {i j : Nat} {item : Option Nat} {s : Source} : Beats (own i) (merged j item s)
  | laterKey {i j : Nat} {item item' : Option Nat} {s t : Source} (h : i < j) :
    Beats (merged j item s) (merged i item' t)
  | earlierItem {i a b : Nat} {s t : Source} (h : a < b) : Beats (merged i (some a) s) (merged i (some b) t)
  | inner {i : Nat} {item : Option Nat} {s t : Source} (h : Beats s t) : Beats (merged i item s) (merged i item t)

theorem Beats.asymm {s t : Source} (h : Beats s t) : ¬ Beats t s := by
  induction h with
  | later h =>
    rintro (h' | _)
    omega
  | own => rintro ⟨⟩
  | laterKey h =>
    intro h'
    cases h' <;> omega
  | earlierItem h =>
    intro h'
    cases h' <;> omega
  | inner h ih =>
    intro h'
    cases h' with
    | laterKey h => omega
    | earlierItem h => omega
    | inner h => exact ih h

end Source

section Ranked

variable {σ τ : Type} {gives gives₁ gives₂ : σ → Node × Node → Prop} {beats : σ → σ → Prop}
  {pairs pairs₁ pairs₂ : List (Node × Node)}

/-- Entries have sources, which are all that there are, and of two sources the one behind beats the other. -/
def Ranked (gives : σ → Node × Node → Prop) (beats : σ → σ → Prop) (pairs : List (Node × Node)) : Prop :=
  ∃ sources, List.Forall₂ gives sources pairs ∧ sources.Pairwise (fun s t => beats t s) ∧
    ∀ s pair, gives s pair → s ∈ sources

theorem Ranked.nil (h : ∀ s pair, ¬ gives s pair) : Ranked gives beats [] :=
  ⟨[], .nil, .nil, fun s pair hs => absurd hs (h s pair)⟩

theorem Ranked.append (h₁ : Ranked gives₁ beats pairs₁) (h₂ : Ranked gives₂ beats pairs₂)
    (hgives : ∀ s pair, gives s pair ↔ gives₁ s pair ∨ gives₂ s pair)
    (hbeats : ∀ s t pair pair', gives₁ s pair → gives₂ t pair' → beats t s) :
      Ranked gives beats (pairs₁ ++ pairs₂) := by
  obtain ⟨first, hfirst, hsorted, hall⟩ := h₁
  obtain ⟨second, hsecond, hsorted', hall'⟩ := h₂
  refine ⟨first ++ second, ?_, List.pairwise_append.2 ⟨hsorted, hsorted', fun s hs t ht => ?_⟩, fun s pair hs => ?_⟩
  · exact List.rel_append (hfirst.imp fun s pair hs => (hgives s pair).2 (.inl hs))
      (hsecond.imp fun s pair hs => (hgives s pair).2 (.inr hs))
  · obtain ⟨pair, -, hpair⟩ := (exists_of_forall₂ hfirst).1 s hs
    obtain ⟨pair', -, hpair'⟩ := (exists_of_forall₂ hsecond).1 t ht
    exact hbeats s t pair pair' hpair hpair'
  · obtain hs | hs := (hgives s pair).1 hs
    · exact List.mem_append_left _ (hall s pair hs)
    · exact List.mem_append_right _ (hall' s pair hs)

/-- Sources under other names. -/
theorem Ranked.map {gives' : τ → Node × Node → Prop} {beats' : τ → τ → Prop} (f : σ → τ) (h : Ranked gives beats pairs)
    (hgives : ∀ t pair, gives' t pair ↔ ∃ s, t = f s ∧ gives s pair) (hbeats : ∀ s t, beats s t → beats' (f s) (f t)) :
    Ranked gives' beats' pairs := by
  obtain ⟨sources, hsources, hsorted, hall⟩ := h
  refine ⟨sources.map f, ?_, ?_, fun t pair ht => ?_⟩
  · rw [List.forall₂_map_left_iff]
    exact hsources.imp fun s pair hs => (hgives (f s) pair).2 ⟨s, rfl, hs⟩
  · rw [List.pairwise_map]
    exact hsorted.imp fun hst => hbeats _ _ hst
  · obtain ⟨s, rfl, hs⟩ := (hgives t pair).1 ht
    exact List.mem_map_of_mem (hall s pair hs)

variable {α : Type} {R : α → List (Node × Node) → Prop} {g : α → σ → Node × Node → Prop} {xs : List α}
  {parts : List (List (Node × Node))}

/-- A source among those of some things: the number of the thing, and the source in it. -/
def GivesAt (g : α → σ → Node × Node → Prop) (xs : List α) (s : Nat × σ) (pair : Node × Node) : Prop :=
  ∃ x, xs[s.1]? = some x ∧ g x s.2 pair

theorem givesAt_cons {x : α} {s : Nat × σ} {pair : Node × Node} : GivesAt g (x :: xs) s pair ↔
    (∃ t, s = (0, t) ∧ g x t pair) ∨ ∃ t, s = (t.1 + 1, t.2) ∧ GivesAt g xs t pair := by
  obtain ⟨i, t⟩ := s
  cases i with
  | zero => simp [GivesAt]
  | succ i => simp [GivesAt]

/-- Sources of a later thing beat those of an earlier one. -/
def LaterWins (beats : σ → σ → Prop) (t s : Nat × σ) : Prop := s.1 < t.1 ∨ s.1 = t.1 ∧ beats t.2 s.2

/-- Sources of an earlier thing beat those of a later one. -/
def EarlierWins (beats : σ → σ → Prop) (t s : Nat × σ) : Prop := t.1 < s.1 ∨ s.1 = t.1 ∧ beats t.2 s.2

/-- The entries of some things one after another. -/
theorem Ranked.flatten (h : List.Forall₂ R xs parts) (hranked : ∀ x ∈ xs, ∀ part, R x part → Ranked (g x) beats part) :
    Ranked (GivesAt g xs) (LaterWins beats) parts.flatten := by
  induction h with
  | nil => exact .nil fun s pair ⟨x, hx, _⟩ => by simp at hx
  | @cons x part xs parts hx _ ih =>
    obtain ⟨hfirst, hrest⟩ := List.forall_mem_cons.1 hranked
    have hhead : Ranked (fun s pair => ∃ t, s = (0, t) ∧ g x t pair) (LaterWins beats) part :=
      (hfirst part hx).map (fun t => (0, t)) (fun _ _ => Iff.rfl) fun _ _ hst => .inr ⟨rfl, hst⟩
    have htail : Ranked (fun s pair => ∃ t, s = (t.1 + 1, t.2) ∧ GivesAt g xs t pair) (LaterWins beats) parts.flatten :=
      (ih hrest).map (fun t => (t.1 + 1, t.2)) (fun _ _ => Iff.rfl) fun _ _ hst => by simpa [LaterWins] using hst
    refine hhead.append htail (fun s pair => givesAt_cons) ?_
    rintro _ _ pair pair' ⟨s, rfl, -⟩ ⟨t, rfl, -⟩
    exact .inl (Nat.succ_pos _)

/-- The entries of some things, those of the last one in front. -/
theorem Ranked.flatten_reverse (h : List.Forall₂ R xs parts)
    (hranked : ∀ x ∈ xs, ∀ part, R x part → Ranked (g x) beats part) :
    Ranked (GivesAt g xs) (EarlierWins beats) parts.reverse.flatten := by
  induction h with
  | nil => exact .nil fun s pair ⟨x, hx, _⟩ => by simp at hx
  | @cons x part xs parts hx _ ih =>
    obtain ⟨hfirst, hrest⟩ := List.forall_mem_cons.1 hranked
    have hhead : Ranked (fun s pair => ∃ t, s = (0, t) ∧ g x t pair) (EarlierWins beats) part :=
      (hfirst part hx).map (fun t => (0, t)) (fun _ _ => Iff.rfl) fun _ _ hst => .inr ⟨rfl, hst⟩
    have htail : Ranked (fun s pair => ∃ t, s = (t.1 + 1, t.2) ∧ GivesAt g xs t pair) (EarlierWins beats)
        parts.reverse.flatten :=
      (ih hrest).map (fun t => (t.1 + 1, t.2)) (fun _ _ => Iff.rfl) fun _ _ hst => by simpa [EarlierWins] using hst
    rw [List.reverse_cons, List.flatten_append, List.flatten_singleton]
    refine htail.append hhead (fun s pair => givesAt_cons.trans or_comm) ?_
    rintro _ _ pair pair' ⟨t, rfl, -⟩ ⟨s, rfl, -⟩
    exact .inl (Nat.succ_pos _)

end Ranked

theorem not_gives_nil {s : Source} {pair : Node × Node} : ¬ Gives [] s pair := by
  intro h
  cases h with
  | own hi => cases hi
  | merged hi => cases hi

theorem ranked_own (entries : List (Node × Node)) :
    Ranked (fun s pair => ∃ i, s = Source.own i ∧ entries[i]? = some pair ∧ pair.1.isMergeKey = false) Source.Beats
      (entries.filter fun (key, _) => !key.isMergeKey) := by
  have hparts : (entries.filter fun (key, _) => !key.isMergeKey) =
      (entries.map fun e => if e.1.isMergeKey then [] else [e]).flatten := by
    induction entries with
    | nil => rfl
    | cons e rest ih => cases hkey : e.1.isMergeKey <;> simp [hkey, ih]
  -- a thing that stands for itself has one source
  have hsingle : ∀ e ∈ entries, ∀ part, part = (if e.1.isMergeKey then [] else [e]) →
      Ranked (fun (_ : Unit) pair => pair = e ∧ e.1.isMergeKey = false) (fun _ _ => False) part := by
    rintro e - _ rfl
    cases hkey : e.1.isMergeKey with
    | true => exact .nil fun _ _ h => by cases h.2
    | false => exact ⟨[()], .cons ⟨rfl, rfl⟩ .nil, by simp, fun _ _ _ => List.mem_singleton.2 rfl⟩
  have hforall : List.Forall₂ (fun e part => part = if e.1.isMergeKey then [] else [e]) entries
      (entries.map fun e => if e.1.isMergeKey then [] else [e]) := by
    rw [List.forall₂_map_right_iff]
    exact List.forall₂_same.2 fun _ _ => rfl
  rw [hparts]
  refine (Ranked.flatten hforall hsingle).map (fun s => .own s.1) (fun s pair => ?_) fun s t hst => ?_
  · constructor
    · rintro ⟨i, rfl, hi, hkey⟩
      exact ⟨(i, ()), rfl, pair, hi, rfl, hkey⟩
    · rintro ⟨⟨i, _⟩, rfl, e, hi, rfl, hkey⟩
      exact ⟨i, rfl, hi, hkey⟩
  · obtain hlt | ⟨-, hfalse⟩ := hst
    · exact .later hlt
    · exact hfalse.elim

/-- What wins among the entries that one merge key brings in. -/
def BeatsIn (t s : Option Nat × Source) : Prop :=
  (∃ a b, t.1 = some a ∧ s.1 = some b ∧ a < b) ∨ t.1 = s.1 ∧ t.2.Beats s.2

/-- The entries that a merge key brings in have their sources in its value, if those of the mappings there do. -/
theorem ranked_expands {e : Node × Node} {part : List (Node × Node)}
    (h : Expands (fun n pairs => Ranked (Gives n.entries) Source.Beats pairs) e part) :
    Ranked (fun (s : Option Nat × Source) pair => e.1.isMergeKey = true ∧ Brings e.2 s.1 s.2 pair) BeatsIn part := by
  cases h with
  | other hkey => exact .nil fun _ _ h => by simp [hkey] at h
  | mapping hkey h =>
    refine h.map (fun s => (none, s)) (fun s pair => ?_) fun s t hst => .inr ⟨rfl, hst⟩
    constructor
    · obtain ⟨item, s⟩ := s
      rintro ⟨-, hs⟩
      cases hs with
      | mapping hs => exact ⟨s, rfl, hs⟩
    · rintro ⟨t, rfl, ht⟩
      exact ⟨hkey, .mapping ht⟩
  | sequence hkey h =>
    have hitems : ∀ (n : Node) part, n.kind = .mapping ∧ Ranked (Gives n.entries) Source.Beats part →
        Ranked (fun s pair => n.kind = .mapping ∧ Gives n.entries s pair) Source.Beats part := fun n part hpart =>
      hpart.2.map id (fun s pair => by simp [hpart.1]) fun _ _ hst => hst
    refine (Ranked.flatten_reverse h fun n _ => hitems n).map (fun s => (some s.1, s.2)) (fun s pair => ?_) ?_
    · constructor
      · obtain ⟨item, s⟩ := s
        rintro ⟨-, hs⟩
        cases hs with
        | item ha hs => exact ⟨(_, s), rfl, _, ha, rfl, hs⟩
      · rintro ⟨⟨a, t⟩, rfl, n, ha, hkind, ht⟩
        cases n with
        | mapping head' entries => exact ⟨hkey, .item ha ht⟩
        | scalar _ _ => cases hkind
        | sequence _ _ => cases hkind
    · rintro ⟨a, s⟩ ⟨b, t⟩ (hlt | ⟨heq, hst⟩)
      · exact .inl ⟨_, _, rfl, rfl, hlt⟩
      · exact .inr ⟨congrArg some heq.symm, hst⟩

/-- What the merge keys of a mapping bring in has its sources in their values. -/
theorem ranked_merged {entries : List (Node × Node)} {parts : List (List (Node × Node))}
    (h : List.Forall₂ (Expands fun n pairs => Ranked (Gives n.entries) Source.Beats pairs) entries parts) :
    Ranked (fun s pair => ∃ i item t key value, s = Source.merged i item t ∧ entries[i]? = some (key, value) ∧
      key.isMergeKey = true ∧ Brings value item t pair) Source.Beats parts.flatten := by
  refine (Ranked.flatten h fun _ _ _ => ranked_expands).map (fun s => .merged s.1 s.2.1 s.2.2) (fun s pair => ?_) ?_
  · constructor
    · rintro ⟨i, item, t, key, value, rfl, hi, hkey, hvalue⟩
      exact ⟨(i, item, t), rfl, (key, value), hi, hkey, hvalue⟩
    · rintro ⟨⟨i, item, t⟩, rfl, ⟨key, value⟩, hi, hkey, hvalue⟩
      exact ⟨i, item, t, key, value, rfl, hi, hkey, hvalue⟩
  · rintro ⟨i, item, s⟩ ⟨j, item', t⟩ (hlt | ⟨heq, ⟨a, b, ha, hb, hlt⟩ | ⟨hitem, hst⟩⟩)
    · exact .laterKey hlt
    · dsimp only at heq ha hb hlt
      subst heq ha hb
      exact .earlierItem hlt
    · dsimp only at heq hitem hst
      subst heq hitem
      exact .inner hst

/-- What is merged comes first, so the own entries of a mapping win against it. -/
theorem Ranked.append_own {entries merged : List (Node × Node)}
    (h : Ranked (fun s pair => ∃ i item t key value, s = Source.merged i item t ∧ entries[i]? = some (key, value) ∧
      key.isMergeKey = true ∧ Brings value item t pair) Source.Beats merged) :
    Ranked (Gives entries) Source.Beats (merged ++ entries.filter fun (key, _) => !key.isMergeKey) := by
  refine h.append (ranked_own entries) (fun s pair => ?_) ?_
  · constructor
    · intro hs
      cases hs with
      | own hi hkey => exact .inr ⟨_, rfl, hi, hkey⟩
      | merged hi hkey hvalue => exact .inl ⟨_, _, _, _, _, rfl, hi, hkey, hvalue⟩
    · rintro (⟨i, item, t, key, value, rfl, hi, hkey, hvalue⟩ | ⟨i, rfl, hi, hkey⟩)
      · exact .merged hi hkey hvalue
      · exact .own hi hkey
  · rintro _ _ pair pair' ⟨i, item, t, key, value, rfl, -⟩ ⟨j, rfl, -⟩
    exact .own

/-- The entries of a mapping have their sources in it, and stand in the order in which they win. -/
theorem ranked_flatEntries {n : Node} {pairs : List (Node × Node)} (h : n.flatEntries = .ok pairs) :
    Ranked (Gives n.entries) Source.Beats pairs := by
  refine flatEntries_induction (fun n hkind => ?_) (fun _ _ _ h => (ranked_merged h).append_own) h
  cases n with
  | mapping _ _ => exact absurd rfl hkind
  | scalar _ _ => exact .nil fun _ _ => not_gives_nil
  | sequence _ _ => exact .nil fun _ _ => not_gives_nil

end NoteVault.Yaml.Node
