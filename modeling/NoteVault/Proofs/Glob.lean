import Mathlib.Data.List.TakeWhile
import Mathlib.Tactic
import NoteVault.Folder.Notes
import NoteVault.Proofs.Failure

/-!
Patterns that have a meaning. Settings are accepted with any texts as patterns, and a pattern is read when a path is
matched for the first time; a pattern without a meaning then fails, for every path alike.
-/
namespace NoteVault

namespace Glob

/-- Characters in brackets: at least one, and only the first of them may be a closing bracket. -/
structure IsSetBody (body : List Char) : Prop where
  nonempty : body ≠ []
  closed : ']' ∉ body.tail

/-- What stands behind an opening bracket: a `!` or `^` that negates, characters, the closing bracket and a rest. -/
inductive IsBracket (body rest : List Char) : Bool → List Char → Prop
  | negated {mark : Char} (hmark : mark = '!' ∨ mark = '^') (hbody : IsSetBody body) :
    IsBracket body rest true (mark :: (body ++ ']' :: rest))
  | plain (hfirst : body.head? ≠ some '!' ∧ body.head? ≠ some '^') (hbody : IsSetBody body) :
    IsBracket body rest false (body ++ ']' :: rest)

/-- How the characters of a name are read. -/
inductive Reads : List Char → List Atom → Prop
  | nil : Reads [] []
  | escaped {c : Char} {s : List Char} {atoms : List Atom} (h : Reads s atoms) :
    Reads ('\\' :: c :: s) (.char c :: atoms)
  | any {s : List Char} {atoms : List Atom} (h : Reads s atoms) : Reads ('*' :: s) (.any :: atoms)
  | one {s : List Char} {atoms : List Atom} (h : Reads s atoms) : Reads ('?' :: s) (.one :: atoms)
  | set {negated : Bool} {body rest s : List Char} {atoms : List Atom} (hs : IsBracket body rest negated s)
    (h : Reads rest atoms) : Reads ('[' :: s) (.set ⟨negated, ranges body⟩ :: atoms)
  /-- A bracket that is never closed stands for itself. -/
  | opening {s : List Char} {atoms : List Atom} (hs : ∀ body rest negated, ¬ IsBracket body rest negated s)
    (h : Reads s atoms) : Reads ('[' :: s) (.char '[' :: atoms)
  | char {c : Char} {s : List Char} {atoms : List Atom} (hc : c ∉ ['\\', '*', '?', '[']) (h : Reads s atoms) :
    Reads (c :: s) (.char c :: atoms)

section Brackets

variable {s body rest : List Char}

theorem upToBracket?_eq_some_iff : upToBracket? s = some (body, rest) ↔ s = body ++ ']' :: rest ∧ ']' ∉ body := by
  unfold upToBracket?
  constructor
  · intro h
    split at h
    next c after hdrop =>
      cases h
      have hc := List.head?_dropWhile_not (fun c => decide (c ≠ ']')) s
      rw [hdrop] at hc
      obtain rfl : c = ']' := by simpa using hc
      refine ⟨?_, fun hmem => ?_⟩
      · rw [← hdrop, List.takeWhile_append_dropWhile]
      · simpa using List.mem_takeWhile_imp hmem
    next => cases h
  · rintro ⟨rfl, hbody⟩
    have hall : ∀ c ∈ body, (decide (c ≠ ']')) = true := fun c hc => by
      rw [decide_eq_true_eq]
      rintro rfl
      exact hbody hc
    rw [List.dropWhile_append_of_pos hall, List.takeWhile_append_of_pos hall]
    simp

theorem closed?_eq_some_iff : closed? s = some (body, rest) ↔ IsSetBody body ∧ s = body ++ ']' :: rest := by
  unfold closed?
  split
  next more =>
    -- the bracket in front belongs to the characters
    constructor
    · intro h
      obtain ⟨⟨inner, after⟩, hinner, h⟩ := Option.map_eq_some_iff.1 h
      cases h
      obtain ⟨rfl, hclosed⟩ := upToBracket?_eq_some_iff.1 hinner
      exact ⟨⟨List.cons_ne_nil _ _, hclosed⟩, rfl⟩
    · rintro ⟨hbody, h⟩
      obtain ⟨c, inner, rfl⟩ := List.exists_cons_of_ne_nil hbody.nonempty
      obtain ⟨rfl, rfl⟩ := List.cons.inj h
      have hinner : upToBracket? (inner ++ ']' :: rest) = some (inner, rest) :=
        upToBracket?_eq_some_iff.2 ⟨rfl, hbody.closed⟩
      exact congrArg (Option.map _) hinner
  next hfirst =>
    rw [upToBracket?_eq_some_iff]
    constructor
    · rintro ⟨rfl, hclosed⟩
      refine ⟨⟨?_, fun hmem => hclosed (List.mem_of_mem_tail hmem)⟩, rfl⟩
      rintro rfl
      exact hfirst _ rfl
    · rintro ⟨hbody, rfl⟩
      obtain ⟨c, inner, rfl⟩ := List.exists_cons_of_ne_nil hbody.nonempty
      refine ⟨rfl, fun hmem => ?_⟩
      obtain rfl | hmem := List.mem_cons.1 hmem
      · exact hfirst _ rfl
      · exact hbody.closed hmem

theorem bracket?_eq_some_iff {negated : Bool} :
    bracket? s = some (negated, body, rest) ↔ IsBracket body rest negated s := by
  have hread : ∀ {mark : Bool} {t : List Char}, (closed? t).map (mark, ·) = some (negated, body, rest) →
      mark = negated ∧ IsSetBody body ∧ t = body ++ ']' :: rest := fun h => by
    obtain ⟨⟨body', rest'⟩, hclosed, h⟩ := Option.map_eq_some_iff.1 h
    cases h
    exact ⟨rfl, closed?_eq_some_iff.1 hclosed⟩
  constructor
  · intro h
    unfold bracket? at h
    split at h
    next more =>
      obtain ⟨rfl, hbody, rfl⟩ := hread h
      exact .negated (.inl rfl) hbody
    next more =>
      obtain ⟨rfl, hbody, rfl⟩ := hread h
      exact .negated (.inr rfl) hbody
    next hbang hcaret =>
      obtain ⟨rfl, hbody, rfl⟩ := hread h
      refine .plain ⟨fun hhead => ?_, fun hhead => ?_⟩ hbody
      · obtain ⟨inner, rfl⟩ := List.head?_eq_some_iff.1 hhead
        exact hbang _ rfl
      · obtain ⟨inner, rfl⟩ := List.head?_eq_some_iff.1 hhead
        exact hcaret _ rfl
  · intro h
    cases h with
    | negated hmark hbody =>
      obtain rfl | rfl := hmark
      all_goals
        rw [bracket?, closed?_eq_some_iff.2 ⟨hbody, rfl⟩]
        rfl
    | plain hfirst hbody =>
      obtain ⟨c, inner, rfl⟩ := List.exists_cons_of_ne_nil hbody.nonempty
      obtain ⟨hbang, hcaret⟩ : c ≠ '!' ∧ c ≠ '^' := by simpa using hfirst
      have hclosed : closed? (c :: (inner ++ ']' :: rest)) = some (c :: inner, rest) :=
        closed?_eq_some_iff.2 ⟨hbody, rfl⟩
      rw [List.cons_append, bracket?, hclosed]
      · rfl
      · rintro more ⟨⟩
        exact hbang rfl
      · rintro more ⟨⟩
        exact hcaret rfl

theorem IsBracket.length_lt {negated : Bool} (h : IsBracket body rest negated s) : rest.length < s.length := by
  cases h with
  | negated => simp; omega
  | plain => simp; omega

end Brackets

variable {pattern : String} {s : List Char} {atoms : List Atom} {fuel : Nat}

/-- What is read behind the first part of a name. -/
theorem map_cons_eq_ok_iff {x : Except GlobError (List Atom)} {a : Atom} :
    x.map (a :: ·) = .ok atoms ↔ ∃ others, x = .ok others ∧ atoms = a :: others := by
  cases x <;> simp [Except.map, eq_comm]

theorem reads_of_nameAtoms (hfuel : s.length < fuel) (h : nameAtoms pattern fuel s = .ok atoms) : Reads s atoms := by
  induction fuel generalizing s atoms with
  | zero => exact absurd hfuel (Nat.not_lt_zero _)
  | succ fuel ih =>
    unfold nameAtoms at h
    split at h
    next => cases h; exact .nil
    next => cases h
    next c rest _ =>
      obtain ⟨others, hothers, rfl⟩ := map_cons_eq_ok_iff.1 h
      exact .escaped (ih (by simp at hfuel; omega) hothers)
    next rest =>
      obtain ⟨others, hothers, rfl⟩ := map_cons_eq_ok_iff.1 h
      exact .any (ih (by simpa using hfuel) hothers)
    next rest =>
      obtain ⟨others, hothers, rfl⟩ := map_cons_eq_ok_iff.1 h
      exact .one (ih (by simpa using hfuel) hothers)
    next rest =>
      split at h
      next hnone =>
        obtain ⟨others, hothers, rfl⟩ := map_cons_eq_ok_iff.1 h
        refine .opening (fun body after negated hbracket => ?_) (ih (by simpa using hfuel) hothers)
        rw [bracket?_eq_some_iff.2 hbracket] at hnone
        cases hnone
      next negated body after hsome =>
        obtain ⟨others, hothers, rfl⟩ := map_cons_eq_ok_iff.1 h
        have hbracket := bracket?_eq_some_iff.1 hsome
        exact .set hbracket (ih (by have := hbracket.length_lt; simp at hfuel; omega) hothers)
    next c rest hlast hescaped hstar hone hopen =>
      obtain ⟨others, hothers, rfl⟩ := map_cons_eq_ok_iff.1 h
      refine .char ?_ (ih (by simpa using hfuel) hothers)
      have hescape : c ≠ '\\' := by
        rintro rfl
        cases rest with
        | nil => exact hlast rfl rfl
        | cons d rest => exact hescaped d rest rfl rfl
      simp only [List.mem_cons, List.not_mem_nil, or_false, not_or]
      exact ⟨hescape, fun hc => hstar hc, fun hc => hone hc, fun hc => hopen hc⟩

theorem Reads.nameAtoms_eq (h : Reads s atoms) (hfuel : s.length < fuel) : nameAtoms pattern fuel s = .ok atoms := by
  induction h generalizing fuel with
  | nil =>
    obtain ⟨fuel, rfl⟩ : ∃ n, fuel = n + 1 := ⟨fuel - 1, by simp at hfuel; omega⟩
    rfl
  | @set _ _ _ s _ hs _ ih =>
    obtain ⟨fuel, rfl⟩ : ∃ n, fuel = n + 1 := ⟨fuel - 1, by omega⟩
    have hlt := hs.length_lt
    rw [nameAtoms, bracket?_eq_some_iff.2 hs]
    exact map_cons_eq_ok_iff.2 ⟨_, ih (by simp at hfuel; omega), rfl⟩
  | @opening s _ hs _ ih =>
    obtain ⟨fuel, rfl⟩ : ∃ n, fuel = n + 1 := ⟨fuel - 1, by omega⟩
    have hnone : bracket? s = none := by
      rw [Option.eq_none_iff_forall_ne_some]
      rintro ⟨negated, body, rest⟩ hsome
      exact hs body rest negated (bracket?_eq_some_iff.1 hsome)
    rw [nameAtoms, hnone]
    exact map_cons_eq_ok_iff.2 ⟨_, ih (by simpa using hfuel), rfl⟩
  | char hc _ ih =>
    obtain ⟨fuel, rfl⟩ : ∃ n, fuel = n + 1 := ⟨fuel - 1, by omega⟩
    simp only [List.mem_cons, List.not_mem_nil, or_false, not_or] at hc
    obtain ⟨hescape, hstar, hone, hopen⟩ := hc
    rw [nameAtoms]
    · exact map_cons_eq_ok_iff.2 ⟨_, ih (by simpa using hfuel), rfl⟩
    all_goals simp_all
  | escaped _ ih | any _ ih | one _ ih =>
    obtain ⟨fuel, rfl⟩ : ∃ n, fuel = n + 1 := ⟨fuel - 1, by omega⟩
    exact map_cons_eq_ok_iff.2 ⟨_, ih (by simp at hfuel; omega), rfl⟩

/-- Names are read as they are to be, and those that cannot be read are refused as a pattern. -/
theorem nameAtoms_eq_ok_iff (hfuel : s.length < fuel) : nameAtoms pattern fuel s = .ok atoms ↔ Reads s atoms :=
  ⟨reads_of_nameAtoms hfuel, fun h => h.nameAtoms_eq hfuel⟩

theorem eq_invalid_of_nameAtoms {e : GlobError} (h : nameAtoms pattern fuel s = .error e) : e = .invalid pattern := by
  have hmap : ∀ {x : Except GlobError (List Atom)} {a : Atom}, x.map (a :: ·) = .error e → x = .error e :=
    fun {x a} hx => by
    cases x with
    | error e' => exact hx
    | ok others => cases hx
  induction fuel generalizing s with
  | zero => cases h
  | succ fuel ih =>
    unfold nameAtoms at h
    split at h
    case h_2 =>
      cases h
      rfl
    case h_6 =>
      split at h
      · exact ih (hmap h)
      · exact ih (hmap h)
    all_goals first | exact ih (hmap h) | cases h

theorem Reads.unique {others : List Atom} (h : Reads s atoms) (h' : Reads s others) : atoms = others := by
  have hlt := Nat.lt_succ_self s.length
  have hok : nameAtoms "" _ s = .ok atoms := (nameAtoms_eq_ok_iff hlt).2 h
  rw [(nameAtoms_eq_ok_iff hlt).2 h'] at hok
  exact (Except.ok.inj hok).symm

/-- No range of the atoms runs backwards. -/
def AreOrdered (atoms : List Atom) : Prop := ∀ a ∈ atoms, a.isOrdered = true

/-- A name can be read. -/
def IsReadable (name : List Char) : Prop := ∃ atoms, Reads name atoms

/-- No range of a name runs backwards. -/
def HasOrder (name : List Char) : Prop := ∀ atoms, Reads name atoms → AreOrdered atoms

theorem areOrdered_cons {a : Atom} : AreOrdered (a :: atoms) ↔ a.isOrdered = true ∧ AreOrdered atoms :=
  List.forall_mem_cons

theorem areOrdered_append {others : List Atom} : AreOrdered (atoms ++ others) ↔ AreOrdered atoms ∧ AreOrdered others :=
  List.forall_mem_append

/-- A name whose characters are read as parts that are in order. -/
theorem Reads.isSound (h : Reads s atoms) (hordered : AreOrdered atoms) : IsReadable s ∧ HasOrder s :=
  ⟨⟨atoms, h⟩, fun _ h' => h.unique h' ▸ hordered⟩

theorem isSound_nil : IsReadable [] ∧ HasOrder [] := Reads.nil.isSound fun _ ha => (List.not_mem_nil ha).elim

theorem isSound_deep : IsReadable ['*', '*'] ∧ HasOrder ['*', '*'] :=
  Reads.nil.any.any.isSound (by simp [AreOrdered, Atom.isOrdered])

/-- Some names are read: they give parts that are in order where the names are, or the pattern is refused for one that
cannot be read. -/
structure Settles (pattern : String) (names : List (List Char)) (x : Except GlobError (List Atom)) : Prop where
  readable : ∀ atoms, x = .ok atoms → ∀ name ∈ names, IsReadable name
  ordered : ∀ atoms, x = .ok atoms → (AreOrdered atoms ↔ ∀ name ∈ names, HasOrder name)
  refused : ∀ e, x = .error e → e = .invalid pattern ∧ ¬ ∀ name ∈ names, IsReadable name

namespace Settles

variable {name : List Char} {names : List (List Char)} {x y : Except GlobError (List Atom)}

theorem nil (h : AreOrdered atoms) : Settles pattern [] (.ok atoms) := by
  refine ⟨fun _ _ _ hname => (List.not_mem_nil hname).elim, fun others hok => ?_, fun e herror => by cases herror⟩
  cases hok
  exact iff_of_true h fun _ hname => (List.not_mem_nil hname).elim

/-- A name that is read in its own way, with parts that are in order. -/
theorem single (hs : Reads name atoms) {others : List Atom} (h : AreOrdered others ↔ AreOrdered atoms) :
    Settles pattern [name] (.ok others) := by
  refine ⟨fun _ _ => List.forall_mem_singleton.2 ⟨atoms, hs⟩, fun _ hok => ?_, fun _ herror => ?_⟩
  · cases hok
    rw [h, List.forall_mem_singleton]
    exact ⟨fun hordered _ h' => hs.unique h' ▸ hordered, fun hname => hname atoms hs⟩
  · cases herror

theorem refuse (pattern : String) (h : ¬ ∀ name ∈ names, IsReadable name) :
    Settles pattern names (.error (.invalid pattern)) := by
  refine ⟨fun _ hok => ?_, fun _ hok => ?_, fun _ herror => ?_⟩
  · cases hok
  · cases hok
  · cases herror
    exact ⟨rfl, h⟩

theorem ownAtoms (pattern : String) (name : List Char) : Settles pattern [name] (ownAtoms pattern name) := by
  unfold Glob.ownAtoms
  split
  next hstar =>
    subst hstar
    exact single Reads.nil.any (by simp [AreOrdered, Atom.isOrdered])
  next =>
    have hread : ∀ {atoms}, nameAtoms pattern (name.length + 1) name = .ok atoms ↔ Reads name atoms :=
      nameAtoms_eq_ok_iff (Nat.lt_succ_self _)
    cases h : nameAtoms pattern (name.length + 1) name with
    | ok atoms => exact single (hread.1 h) Iff.rfl
    | error e =>
      obtain rfl := eq_invalid_of_nameAtoms h
      refine refuse pattern fun hall => ?_
      obtain ⟨atoms, hatoms⟩ := List.forall_mem_singleton.1 hall
      rw [hread.2 hatoms] at h
      cases h

/-- A name, and the names behind it. -/
theorem cons (hx : Settles pattern [name] x) (hy : Settles pattern names y) {f : List Atom → List Atom → List Atom}
    (hf : ∀ own others, AreOrdered (f own others) ↔ AreOrdered own ∧ AreOrdered others) :
    Settles pattern (name :: names) (do let own ← x; let others ← y; return f own others) := by
  have hok : ∀ {atoms}, (do let own ← x; let others ← y; return f own others) = .ok atoms →
      ∃ own others, x = .ok own ∧ y = .ok others ∧ atoms = f own others := fun h => by
    obtain ⟨own, hown, h⟩ := bind_eq_ok.1 h
    obtain ⟨others, hothers, h⟩ := bind_eq_ok.1 h
    cases h
    exact ⟨own, others, hown, hothers, rfl⟩
  refine ⟨fun atoms h => ?_, fun atoms h => ?_, fun e h => ?_⟩
  · obtain ⟨own, others, hown, hothers, -⟩ := hok h
    exact List.forall_mem_cons.2 ⟨List.forall_mem_singleton.1 (hx.readable own hown), hy.readable others hothers⟩
  · obtain ⟨own, others, hown, hothers, rfl⟩ := hok h
    rw [hf, hx.ordered own hown, hy.ordered others hothers, List.forall_mem_singleton, List.forall_mem_cons]
  · rw [List.forall_mem_cons]
    cases hown : x with
    | error e' =>
      rw [hown] at h
      obtain ⟨rfl, hnot⟩ := hx.refused e' hown
      cases h
      exact ⟨rfl, fun hall => hnot (List.forall_mem_singleton.2 hall.1)⟩
    | ok own =>
      cases hothers : y with
      | error e' =>
        rw [hown, hothers] at h
        obtain ⟨rfl, hnot⟩ := hy.refused e' hothers
        cases h
        exact ⟨rfl, fun hall => hnot hall.2⟩
      | ok others =>
        rw [hown, hothers] at h
        cases h

theorem map (h : Settles pattern names x) {f : List Atom → List Atom}
    (hf : ∀ atoms, AreOrdered (f atoms) ↔ AreOrdered atoms) :
    Settles pattern names (x.map f) := by
  cases hx : x with
  | error e =>
    obtain ⟨rfl, hnot⟩ := h.refused e hx
    exact refuse pattern hnot
  | ok others =>
    refine ⟨fun _ _ => h.readable others hx, fun atoms hok => ?_, fun e herror => ?_⟩
    · cases hok
      exact (hf others).trans (h.ordered others hx)
    · cases herror

/-- Empty names and deep ones may be added and left out. -/
theorem congr {others : List (List Char)} (h : Settles pattern names x)
    (hsame : ∀ P : List Char → Prop, P [] → P ['*', '*'] → ((∀ name ∈ names, P name) ↔ ∀ name ∈ others, P name)) :
    Settles pattern others x := by
  have hreadable := hsame IsReadable isSound_nil.1 isSound_deep.1
  have hordered := hsame HasOrder isSound_nil.2 isSound_deep.2
  refine ⟨fun atoms hok => hreadable.1 (h.readable atoms hok), fun atoms hok => (h.ordered atoms hok).trans hordered,
    ?_⟩
  intro e herror
  rw [← hreadable]
  exact h.refused e herror

theorem laterAtoms (pattern : String) (afterSlash : Bool) (names : List (List Char)) :
    Settles pattern names (laterAtoms pattern afterSlash names) := by
  induction names generalizing afterSlash with
  | nil => exact nil (by simp [AreOrdered])
  | cons name rest ih =>
    unfold Glob.laterAtoms
    split
    next hdeep =>
      obtain rfl := of_decide_eq_true hdeep
      split
      next hrest =>
        obtain rfl := List.isEmpty_iff.1 hrest
        exact (nil (by simp [AreOrdered, Atom.isOrdered])).congr fun P _ hP => by simp [hP]
      next =>
        have hbetween := (ih false).map (f := (.between :: ·)) fun atoms => by simp [areOrdered_cons, Atom.isOrdered]
        exact hbetween.congr fun P _ hP => by simp [hP]
    next =>
      refine (ownAtoms pattern name).cons (ih false) fun own others => ?_
      rw [areOrdered_append, areOrdered_append, areOrdered_append]
      split <;> split <;> simp [AreOrdered, Atom.isOrdered]

theorem atomsOf (pattern : String) (h : names ≠ []) : Settles pattern names (atomsOf pattern names) := by
  unfold Glob.atomsOf
  split
  next => exact absurd rfl h
  next name =>
    split
    next hdeep =>
      obtain rfl := of_decide_eq_true hdeep
      exact single Reads.nil.any.any (by simp [AreOrdered, Atom.isOrdered])
    next => exact laterAtoms pattern true [name]
  next name rest _ =>
    split
    next hdeep =>
      obtain rfl := of_decide_eq_true hdeep
      have habove := (laterAtoms pattern true rest).map (f := (.above :: ·)) fun atoms => by
        simp [areOrdered_cons, Atom.isOrdered]
      exact habove.congr fun P _ hP => by simp [hP]
    next => exact laterAtoms pattern true (name :: rest)

end Settles

section Names

variable {names : List (List Char)} {P : List Char → Prop}

theorem mem_collapse {name : List Char} : name ∈ collapse names ↔ name ∈ names := by
  fun_induction collapse names with
  | case1 a b rest hdeep ih =>
    obtain ⟨ha, hb⟩ := Bool.and_eq_true_iff.1 hdeep
    obtain rfl := (of_decide_eq_true ha).trans (of_decide_eq_true hb).symm
    rw [ih]
    simp
  | case2 a b rest _ ih => rw [List.mem_cons, ih, ← List.mem_cons]
  | case3 => rfl

theorem collapse_eq_self (h : ['*', '*'] ∉ names) : collapse names = names := by
  fun_induction collapse names with
  | case1 a b rest hdeep _ =>
    obtain rfl := of_decide_eq_true (Bool.and_eq_true_iff.1 hdeep).1
    exact absurd List.mem_cons_self h
  | case2 a b rest _ ih => rw [ih fun hmem => h (List.mem_cons_of_mem _ hmem)]
  | case3 => rfl

theorem forall_mem_anchored (hempty : P []) (hdeep : P ['*', '*']) :
    (∀ name ∈ anchored names, P name) ↔ ∀ name ∈ names, P name := by
  unfold anchored
  split
  · simp [hempty]
  · split
    · rfl
    · simp [hdeep]
  · split
    · rfl
    · simp [hdeep]
  · rfl

theorem anchored_ne_nil (h : names ≠ []) (h' : names ≠ [[]]) : anchored names ≠ [] := by
  unfold anchored
  split
  next rest =>
    rintro rfl
    exact h' rfl
  next name _ => split <;> simp
  next name _ => split <;> simp
  next => exact h

theorem forall_mem_deepEnd (hempty : P []) (hdeep : P ['*', '*']) :
    (∀ name ∈ deepEnd names, P name) ↔ ∀ name ∈ names, P name := by
  unfold deepEnd
  split
  next h =>
    have hnames := List.dropLast_append_getLast? [] h.2
    rw [List.forall_mem_append, List.forall_mem_singleton, ← hnames, List.forall_mem_append, List.forall_mem_singleton,
      hnames]
    simp [hempty, hdeep]
  next => rfl

theorem deepEnd_ne_nil (h : names ≠ []) : deepEnd names ≠ [] := by
  unfold deepEnd
  split
  · simp
  · exact h

end Names

/-- The names of a pattern are read as they stand between the slashes. -/
theorem settles_names (pattern : String) {body : List Char} (hbody : body ≠ []) :
    Settles pattern (body.splitOn '/') (atomsOf pattern (deepEnd (anchored (collapse (body.splitOn '/'))))) := by
  have hcollapse : collapse (body.splitOn '/') ≠ [] := fun h => by
    obtain ⟨name, hname⟩ := List.exists_mem_of_ne_nil _ (List.splitOn_ne_nil '/' body)
    rw [← mem_collapse, h] at hname
    exact List.not_mem_nil hname
  have hempty : collapse (body.splitOn '/') ≠ [[]] := fun h => by
    have hdeep : ['*', '*'] ∉ body.splitOn '/' := by
      rw [← mem_collapse, h]
      simp
    rw [collapse_eq_self hdeep] at h
    have hjoined : ['/'].intercalate (body.splitOn '/') = body := List.intercalate_splitOn '/'
    rw [h] at hjoined
    exact hbody hjoined.symm
  refine (Settles.atomsOf pattern (deepEnd_ne_nil (anchored_ne_nil hcollapse hempty))).congr fun P hP hP' => ?_
  rw [forall_mem_deepEnd hP hP', forall_mem_anchored hP hP']
  exact forall_congr' fun name => by rw [mem_collapse]

/-- The names of a pattern, between its slashes. A comment has none. -/
def namesOf (pattern : String) : List (List Char) :=
  match trimmed pattern with
  | '#' :: _ => []
  | '!' :: body => body.splitOn '/'
  | body => body.splitOn '/'

/-- Behind a `!` something is left to match, and every name of the pattern can be read. -/
structure IsWhole (pattern : String) : Prop where
  matchable : trimmed pattern ≠ ['!']
  readable : ∀ name ∈ namesOf pattern, IsReadable name

/-- The pattern has a meaning. -/
structure IsUsable (pattern : String) : Prop extends IsWhole pattern where
  ordered : ∀ name ∈ namesOf pattern, HasOrder name

/-- What is wrong with a pattern that has no meaning. Names are read before ranges are looked at. -/
inductive Fails (pattern : String) : GlobError → Prop
  | invalid (h : ¬ IsWhole pattern) : Fails pattern (.invalid pattern)
  | reversed (h : IsWhole pattern) (hrange : ¬ ∀ name ∈ namesOf pattern, HasOrder name) : Fails pattern .reversedRange

theorem isUsable_iff : IsUsable pattern ↔ ∀ e, ¬ Fails pattern e := by
  constructor
  · rintro ⟨hwhole, hordered⟩ e (hnot | ⟨-, hrange⟩)
    · exact hnot hwhole
    · exact hrange hordered
  · intro h
    have hwhole : IsWhole pattern := by
      by_contra hnot
      exact h _ (.invalid hnot)
    refine ⟨hwhole, ?_⟩
    by_contra hrange
    exact h _ (.reversed hwhole hrange)

/-- Names fail for one that cannot be read, and else for a range that runs backwards. -/
theorem Settles.ordered_eq_error_iff {names : List (List Char)} {x : Except GlobError (List Atom)} {e : GlobError}
    (h : Settles pattern names x) : x >>= Glob.ordered = .error e ↔
      (¬ ∀ name ∈ names, IsReadable name) ∧ e = .invalid pattern ∨
        (∀ name ∈ names, IsReadable name) ∧ (¬ ∀ name ∈ names, HasOrder name) ∧ e = .reversedRange := by
  cases hx : x with
  | error e' =>
    obtain ⟨rfl, hnot⟩ := h.refused e' hx
    simp [bind, Except.bind, hnot, eq_comm]
  | ok atoms =>
    have hreadable := h.readable atoms hx
    have hordered : atoms.all Atom.isOrdered = true ↔ ∀ name ∈ names, HasOrder name := by
      rw [← h.ordered atoms hx, List.all_eq_true, AreOrdered]
    have hbind : Except.ok atoms >>= Glob.ordered =
        if atoms.all Atom.isOrdered then .ok atoms else .error .reversedRange :=
      rfl
    rw [hbind, ← hordered, eq_true hreadable]
    split
    next hall => simp [hall]
    next hall => simp [hall, eq_comm]

theorem bodyAtoms_eq_error_iff {body : List Char} {e : GlobError} : bodyAtoms pattern body = .error e ↔
    (body = [] ∨ ¬ ∀ name ∈ body.splitOn '/', IsReadable name) ∧ e = .invalid pattern ∨
      body ≠ [] ∧ (∀ name ∈ body.splitOn '/', IsReadable name) ∧ (¬ ∀ name ∈ body.splitOn '/', HasOrder name) ∧
        e = .reversedRange := by
  by_cases hbody : body = []
  · subst hbody
    have hrefused : bodyAtoms pattern [] = .error (.invalid pattern) := by
      simp [bodyAtoms, List.splitOn_nil, collapse, anchored, deepEnd, atomsOf, bind, Except.bind]
    simp [hrefused, eq_comm]
  · have hsplit : bodyAtoms pattern body = if collapse (body.splitOn '/') = [['*', '*'], []] then .ok [.inside]
        else atomsOf pattern (deepEnd (anchored (collapse (body.splitOn '/')))) >>= ordered := rfl
    rw [hsplit]
    split
    next hinside =>
      -- deep and empty names are read whatever else they do
      have hsound : ∀ name ∈ body.splitOn '/', IsReadable name ∧ HasOrder name := fun name hname => by
        rw [← mem_collapse, hinside] at hname
        simp only [List.mem_cons, List.not_mem_nil, or_false] at hname
        obtain rfl | rfl := hname
        · exact isSound_deep
        · exact isSound_nil
      refine iff_of_false (fun herror => by cases herror) ?_
      rintro (⟨hbody' | hnot, -⟩ | ⟨-, -, hrange, -⟩)
      · exact hbody hbody'
      · exact hnot fun name hname => (hsound name hname).1
      · exact hrange fun name hname => (hsound name hname).2
    next => simp only [(settles_names pattern hbody).ordered_eq_error_iff, hbody, false_or, ne_eq, not_false_eq_true,
      true_and]

theorem bodyAtoms_eq_error_iff_fails {body : List Char} {e : GlobError} (hnames : namesOf pattern = body.splitOn '/')
    (hbody : trimmed pattern = ['!'] ↔ body = []) : bodyAtoms pattern body = .error e ↔ Fails pattern e := by
  rw [bodyAtoms_eq_error_iff, ← hnames, ne_eq, ← hbody]
  constructor
  · rintro (⟨hmark | hnot, rfl⟩ | ⟨hmatchable, hreadable, hrange, rfl⟩)
    · exact .invalid fun h => h.matchable hmark
    · exact .invalid fun h => hnot h.readable
    · exact .reversed ⟨hmatchable, hreadable⟩ hrange
  · rintro (h | ⟨⟨hmatchable, hreadable⟩, hrange⟩)
    · refine .inl ⟨?_, rfl⟩
      by_contra hnot
      obtain ⟨hmatchable, hreadable⟩ := not_or.1 hnot
      exact h ⟨hmatchable, not_not.1 hreadable⟩
    · exact .inr ⟨hmatchable, hreadable, hrange, rfl⟩

/-- Empty names never fail. -/
theorem isUsable_of_empty (hmatchable : trimmed pattern ≠ ['!']) (h : ∀ name ∈ namesOf pattern, name = []) :
    IsUsable pattern := by
  refine ⟨⟨hmatchable, fun name hname => ?_⟩, fun name hname => ?_⟩
  · rw [h name hname]
    exact isSound_nil.1
  · rw [h name hname]
    exact isSound_nil.2

/-- A pattern is refused where it has no meaning, and for that reason. -/
theorem ofText?_eq_error_iff {e : GlobError} : ofText? pattern = .error e ↔ Fails pattern e := by
  have hmap : ∀ {x : Except GlobError (List Atom)} {f : List Atom → Option Glob}, x.map f = .error e ↔ x = .error e :=
    fun {x f} => by cases x <;> simp [Except.map]
  have hnone : IsUsable pattern → ((.ok none : Except GlobError (Option Glob)) = .error e ↔ Fails pattern e) :=
    fun h => by
    refine iff_of_false (fun herror => ?_) (isUsable_iff.1 h e)
    cases herror
  unfold ofText?
  split
  next htrimmed => exact hnone (isUsable_of_empty (by simp [htrimmed]) (by simp [namesOf, htrimmed]))
  next comment htrimmed => exact hnone (isUsable_of_empty (by simp [htrimmed]) (by simp [namesOf, htrimmed]))
  next htrimmed =>
    refine hnone (isUsable_of_empty (by simp [htrimmed]) ?_)
    have hslash : ['/'].splitOn '/' = [[], []] := rfl
    simp [namesOf, htrimmed, hslash]
  next body htrimmed =>
    rw [hmap, bodyAtoms_eq_error_iff_fails (by simp [namesOf, htrimmed]) (by simp [htrimmed])]
  next body hempty hcomment hslash hmark =>
    have hnames : namesOf pattern = (trimmed pattern).splitOn '/' := by
      unfold namesOf
      split
      next comment htrimmed => exact absurd htrimmed (hcomment comment)
      next rest htrimmed => exact absurd htrimmed (hmark rest)
      next => rfl
    rw [hmap, bodyAtoms_eq_error_iff_fails hnames (iff_of_false (hmark []) hempty)]

theorem exists_ofText?_iff : (∃ g, ofText? pattern = .ok g) ↔ IsUsable pattern := by
  rw [isUsable_iff]
  cases h : ofText? pattern with
  | ok g => simp [← ofText?_eq_error_iff, h]
  | error e => simp [← ofText?_eq_error_iff, h]

end Glob

end NoteVault
