import NoteVault.Proofs.Failure
import NoteVault.Proofs.Yaml.Scan.Tokens
import NoteVault.Yaml.Node.Value

/-!
The state of a reader, whatever the tokens are: anchors are never forgotten, what is read is known by its anchors, and
everything that carries an anchor begins at a place of its own.
-/
namespace NoteVault.Yaml.Node

/-- The keys and the values of entries. -/
def entryNodes (entries : List (Node × Node)) : List Node := entries.flatMap fun (key, value) => [key, value]

/-- The nodes right below a node. -/
def children : Node → List Node
  | scalar _ _ => []
  | sequence _ items => items
  | mapping _ entries => entryNodes entries

/-- A node stands in another one, or is it. -/
def Contains : Node → Node → Prop := Relation.ReflTransGen fun n m => m ∈ n.children

/-- A node with an anchor that does not stand for a collection around it. -/
def IsNamed (n : Node) : Prop := n.head.anchored = true ∧ n.head.enclosing = false

namespace Reader

variable {s u v : Reader}

/-- All nodes with anchors in a node are known by their anchors. -/
def Records (s : Reader) (n : Node) : Prop := ∀ m, n.Contains m → m.IsNamed → ∃ a ∈ s.anchors, a.node = m

/-- Anchors have distinct names and begin at distinct places, none of which is still to come, and know what they
hold. -/
structure Sound (s : Reader) : Prop where
  places : (propertyPlaces s.tokens).Nodup
  names : (s.anchors.map (·.name)).Nodup
  begins : (s.anchors.map (·.node.index)).Nodup
  passed : ∀ a ∈ s.anchors, a.node.index ∉ propertyPlaces s.tokens
  known : ∀ a ∈ s.anchors, s.Records a.node

/-- Reading goes on: tokens are taken, and anchors are kept. -/
structure Extends (s u : Reader) : Prop where
  failure : u.failure = s.failure
  tokens : u.tokens.IsSuffix s.tokens
  anchors : ∀ a ∈ s.anchors, a ∈ u.anchors

@[refl] theorem Extends.refl (s : Reader) : s.Extends s := ⟨rfl, List.suffix_rfl, fun _ h => h⟩

theorem Extends.trans (h : s.Extends u) (h' : u.Extends v) : s.Extends v :=
  ⟨h'.failure.trans h.failure, h'.tokens.trans h.tokens, fun a ha => h'.anchors a (h.anchors a ha)⟩

theorem extends_next (s : Reader) : s.Extends s.next := ⟨rfl, List.tail_suffix _, fun _ h => h⟩

theorem Records.mono {n : Node} (h : s.Records n) (hu : s.Extends u) : u.Records n := fun m hm hnamed => by
  obtain ⟨a, ha, rfl⟩ := h m hm hnamed
  exact ⟨a, hu.anchors a ha, rfl⟩

theorem sublist_propertyPlaces {ts us : List Token} (h : ts.Sublist us) :
    (propertyPlaces ts).Sublist (propertyPlaces us) := (h.filter _).map _

theorem Sound.next (h : s.Sound) : s.next.Sound where
  places := h.places.sublist (sublist_propertyPlaces (List.tail_sublist _))
  names := h.names
  begins := h.begins
  passed a ha hplace := h.passed a ha ((sublist_propertyPlaces (List.tail_sublist _)).subset hplace)
  known := h.known

/-- A node with known children is known, unless it has an anchor itself. -/
theorem records_of_children {n : Node} (hn : n.head.anchored = false) (h : ∀ m ∈ n.children, s.Records m) :
    s.Records n := by
  intro m hm hnamed
  obtain rfl | ⟨k, hk, hm⟩ := hm.cases_head
  · rw [hnamed.1] at hn
    cases hn
  · exact h k hk m hm hnamed

theorem records_empty (s : Reader) (m : Mark) : s.Records (empty m) := records_of_children rfl nofun

/-- What is read from a state extends it by nodes that are known, and fails for a fault or where tokens end. -/
structure Composes {α : Type} (s : Reader) (state : α → Reader) (nodes : α → List Node) (x : Except Error α) :
    Prop where
  made : ∀ a, x = .ok a → s.Extends (state a) ∧ (state a).Sound ∧ ∀ n ∈ nodes a, (state a).Records n
  fails : ∀ e, x = .error e → (∃ f, e = .fault f) ∨ s.failure = some e

section Composes

variable {α β : Type} {state : α → Reader} {state' : β → Reader} {nodes : α → List Node} {nodes' : β → List Node}

theorem composes_ok {a : α} (hext : s.Extends (state a)) (hs : (state a).Sound)
    (h : ∀ n ∈ nodes a, (state a).Records n) : s.Composes state nodes (.ok a) := by
  refine ⟨fun b hb => ?_, fun e he => ?_⟩
  · cases hb
    exact ⟨hext, hs, h⟩
  · cases he

theorem composes_error {e : Error} (h : (∃ f, e = .fault f) ∨ s.failure = some e) :
    s.Composes state nodes (.error e) := by
  refine ⟨fun a ha => ?_, fun e' he => ?_⟩
  · cases ha
  · cases he
    exact h

theorem composes_refuse {context : Option (Context × Option Mark)} {problem : Problem} {mark : Mark} :
    s.Composes state nodes (refuse context problem mark) := composes_error (.inl ⟨_, rfl⟩)

theorem Composes.of_extends {x : Except Error α} (h : s.Extends u) (hx : u.Composes state nodes x) :
    s.Composes state nodes x := by
  refine ⟨fun a ha => ?_, fun e he => h.failure ▸ hx.fails e he⟩
  obtain ⟨hext, hs, hknown⟩ := hx.made a ha
  exact ⟨h.trans hext, hs, hknown⟩

theorem Composes.bind {x : Except Error α} {f : α → Except Error β} (h : s.Composes state nodes x)
    (hf : ∀ a, s.Extends (state a) → (state a).Sound → (∀ n ∈ nodes a, (state a).Records n) →
      (state a).Composes state' nodes' (f a)) : s.Composes state' nodes' (x >>= f) := by
  cases x with
  | ok a =>
    obtain ⟨hext, hs, hknown⟩ := h.made a rfl
    exact (hf a hext hs hknown).of_extends hext
  | error e => exact composes_error (h.fails e rfl)

/-- A step that reads no node. -/
theorem composes_bind {x : Except Error α} {f : α → Except Error β}
    (hx : ∀ e, x = .error e → (∃ fault, e = .fault fault) ∨ s.failure = some e)
    (hf : ∀ a, x = .ok a → s.Composes state' nodes' (f a)) : s.Composes state' nodes' (x >>= f) := by
  cases x with
  | ok a => exact hf a rfl
  | error e => exact composes_error (hx e rfl)

theorem composes_peek {f : Token → Except Error β} (hf : ∀ t, s.peek = .ok t → s.Composes state' nodes' (f t)) :
    s.Composes state' nodes' (s.peek >>= f) := by
  refine composes_bind (fun e he => ?_) hf
  unfold peek at he
  split at he
  · cases he
  · cases he
    cases s.failure with
    | none => exact .inl ⟨_, rfl⟩
    | some e => exact .inr rfl

end Composes

section Anchors

variable {name : String} {anchor : Option String} {mark : Mark} {n : Node}

/-- No node with an anchor begins at a place, and none will begin there. -/
structure Free (s : Reader) (place : Nat) : Prop where
  tokens : place ∉ propertyPlaces s.tokens
  anchors : place ∉ s.anchors.map (·.node.index)

theorem Free.next {place : Nat} (h : s.Free place) : s.next.Free place :=
  ⟨fun hplace => h.tokens ((sublist_propertyPlaces (List.tail_sublist _)).subset hplace), h.anchors⟩

/-- The place of the next token is free behind it if it is a property. -/
theorem Sound.free (hs : s.Sound) {t : Token} (hpeek : s.peek = .ok t) (ht : isProperty t.kind = true) :
    s.next.Free t.start.index := by
  obtain ⟨rest, htokens⟩ : ∃ rest, s.tokens = t :: rest := by
    unfold peek at hpeek
    split at hpeek
    next heq =>
      cases hpeek
      exact ⟨_, heq⟩
    next => cases hpeek
  have hplaces : propertyPlaces s.tokens = t.start.index :: propertyPlaces rest := by
    rw [htokens, propertyPlaces, List.filter_cons, if_pos ht]
    rfl
  refine ⟨?_, fun hmem => ?_⟩
  · rw [Reader.next, htokens]
    exact (List.nodup_cons.1 (hplaces ▸ hs.places)).1
  · obtain ⟨a, ha, hindex⟩ := List.mem_map.1 hmem
    refine hs.passed a ha ?_
    rw [hplaces, hindex]
    exact List.mem_cons_self

theorem composes_reserve {β : Type} {state : β → Reader} {nodes : β → List Node} {f : Unit → Except Error β}
    (hf : (∀ name ∈ anchor, ∀ a ∈ s.anchors, a.name ≠ name) → s.Composes state nodes (f ())) :
    s.Composes state nodes (s.reserveAnchor mark anchor >>= f) := by
  cases anchor with
  | none => exact hf nofun
  | some name =>
    rw [reserveAnchor]
    cases hfind : s.anchors.find? (·.name = name) with
    | none =>
      refine hf fun other hother a ha hname => List.find?_eq_none.1 hfind a ha ?_
      rw [hname, Option.some.inj hother]
      exact decide_eq_true rfl
    | some first => exact composes_refuse

theorem mem_setAnchor {a : Anchor} : a ∈ (s.setAnchor n (some name)).anchors ↔
    a = ⟨name, n⟩ ∨ a ∈ s.anchors ∧ a.name ≠ name := by
  simp [setAnchor]

/-- An anchor is given to a node whose children are known. What it takes the place of, if anything, holds nothing and
begins at the same place. -/
theorem Sound.setAnchor (hs : s.Sound) (hplace : n.index ∉ propertyPlaces s.tokens)
    (hothers : ∀ a ∈ s.anchors, a.node.index = n.index → a.name = name)
    (hstub : ∀ a ∈ s.anchors, a.name = name → ¬ a.node.IsNamed) (hchildren : ∀ m ∈ n.children, s.Records m) :
    (s.setAnchor n (some name)).Sound := by
  have hkept : ∀ {m : Node}, s.Records m → (s.setAnchor n (some name)).Records m := by
    intro m hm k hk hnamed
    obtain ⟨a, ha, rfl⟩ := hm k hk hnamed
    exact ⟨a, mem_setAnchor.2 (.inr ⟨ha, fun hname => hstub a ha hname hnamed⟩), rfl⟩
  have hsub : (s.anchors.filter (·.name ≠ name)).Sublist s.anchors := List.filter_sublist
  refine ⟨hs.places, ?_, ?_, fun a ha => ?_, fun a ha => ?_⟩
  · refine List.nodup_cons.2 ⟨fun hmem => ?_, hs.names.sublist (hsub.map _)⟩
    obtain ⟨a, ha, hname⟩ := List.mem_map.1 hmem
    exact of_decide_eq_true (List.mem_filter.1 ha).2 hname
  · refine List.nodup_cons.2 ⟨fun hmem => ?_, hs.begins.sublist (hsub.map _)⟩
    obtain ⟨a, ha, hindex⟩ := List.mem_map.1 hmem
    exact of_decide_eq_true (List.mem_filter.1 ha).2 (hothers a (List.mem_filter.1 ha).1 hindex)
  · obtain rfl | ⟨ha, -⟩ := mem_setAnchor.1 ha
    · exact hplace
    · exact hs.passed a ha
  · obtain rfl | ⟨ha, -⟩ := mem_setAnchor.1 ha
    · intro m hm hnamed
      obtain rfl | ⟨k, hk, hm⟩ := hm.cases_head
      · exact ⟨_, mem_setAnchor.2 (.inl rfl), rfl⟩
      · exact hkept (hchildren k hk) m hm hnamed
    · exact hkept (hs.known a ha)

/-- A new anchor at a free place. -/
theorem Sound.setAnchor_fresh (hs : s.Sound) (hfree : s.Free n.index) (hnone : ∀ a ∈ s.anchors, a.name ≠ name)
    (hchildren : n.children = []) :
    (s.setAnchor n (some name)).Sound ∧ s.Extends (s.setAnchor n (some name)) :=
  ⟨hs.setAnchor hfree.tokens (fun a ha hindex => absurd (List.mem_map.2 ⟨a, ha, hindex⟩) hfree.anchors)
    (fun a ha hname => absurd hname (hnone a ha)) (by simp [hchildren]),
    rfl, List.suffix_rfl, fun a ha => mem_setAnchor.2 (.inr ⟨ha, hnone a ha⟩)⟩

/-- A scalar with its properties. -/
theorem composes_single (hs : s.Sound) (hmark : n.index = mark.index) (hchildren : n.children = [])
    (hanchored : n.head.anchored = anchor.isSome) (hfree : anchor.isSome = true → s.Free mark.index) :
    s.Composes Prod.snd (fun r => [r.1]) (do
      s.reserveAnchor mark anchor
      return (n, s.setAnchor n anchor)) := by
  refine composes_reserve fun hfresh => ?_
  cases anchor with
  | none =>
    refine composes_ok (.refl s) hs fun m hm => ?_
    obtain rfl := List.mem_singleton.1 hm
    exact records_of_children hanchored (by simp [hchildren])
  | some name =>
    obtain ⟨hset, hext⟩ := hs.setAnchor_fresh (hmark ▸ hfree rfl) (hfresh name rfl) hchildren
    refine composes_ok hext hset fun m hm => ?_
    obtain rfl := List.mem_singleton.1 hm
    exact hset.known _ (mem_setAnchor.2 (.inl rfl))

/-- The node of a collection takes the place of what stood for it while it was read. -/
theorem Sound.setAnchor_whole {whole : Node} (hs : v.Sound) (hfree : s.Free n.index)
    (hnone : ∀ a ∈ s.anchors, a.name ≠ name) (hv : (s.setAnchor whole (some name)).Extends v)
    (hwhole : whole.index = n.index) (henclosing : whole.head.enclosing = true)
    (hknown : ∀ m ∈ n.children, v.Records m) :
    (v.setAnchor n (some name)).Sound ∧ s.Extends (v.setAnchor n (some name)) := by
  have hstub : ⟨name, whole⟩ ∈ v.anchors := hv.anchors _ (mem_setAnchor.2 (.inl rfl))
  refine ⟨hs.setAnchor (fun hplace => ?_) (fun a ha hplace => ?_) (fun a ha hname hnamed => ?_) hknown, hv.failure,
    hv.tokens, fun a ha => mem_setAnchor.2 (.inr ⟨hv.anchors a (mem_setAnchor.2 (.inr ⟨ha, hnone a ha⟩)), hnone a ha⟩)⟩
  · exact hfree.tokens ((sublist_propertyPlaces hv.tokens.sublist).subset hplace)
  · rw [List.inj_on_of_nodup_map hs.begins ha hstub (hplace.trans hwhole.symm)]
  · rw [List.inj_on_of_nodup_map hs.names ha hstub hname, IsNamed, henclosing] at hnamed
    cases hnamed.2

/-- A collection with its properties. While it is read its anchor names what stands for it. -/
theorem composes_collect {α : Type} {read : Reader → Except Error (α × Reader)} {kids : α → List Node} {f : α → Node}
    {whole : Node} (hs : s.Sound) (hfree : anchor.isSome = true → s.Free mark.index)
    (hwhole : whole.index = mark.index) (hempty : whole.children = []) (henclosing : whole.head.enclosing = true)
    (hindex : ∀ a, (f a).index = mark.index) (hkids : ∀ a, (f a).children = kids a)
    (hanchored : ∀ a, (f a).head.anchored = anchor.isSome)
    (hread : ∀ v : Reader, v.Sound → v.Composes Prod.snd (fun r => kids r.1) (read v)) :
    s.Composes Prod.snd (fun r => [r.1]) (do
      s.reserveAnchor mark anchor
      let (n, v) ← (do
        let (a, v) ← read (s.setAnchor whole anchor)
        return (f a, v))
      return (n, v.setAnchor n anchor)) := by
  refine composes_reserve fun hfresh => ?_
  rw [bind_assoc]
  cases anchor with
  | none =>
    refine (hread s hs).bind fun ⟨a, v⟩ _ hv hknown => composes_ok (.refl v) hv fun m hm => ?_
    obtain rfl := List.mem_singleton.1 hm
    exact records_of_children (hanchored a) (hkids a ▸ hknown)
  | some name =>
    have hnone := hfresh name rfl
    have hfree := hfree rfl
    obtain ⟨hset, hext⟩ := hs.setAnchor_fresh (hwhole ▸ hfree) hnone hempty
    have hread := hread _ hset
    generalize hx : read (s.setAnchor whole (some name)) = x at hread
    cases x with
    | error e => exact composes_error ((hread.of_extends hext).fails e rfl)
    | ok r =>
      obtain ⟨hv, hsound, hknown⟩ := hread.made r rfl
      obtain ⟨hfinal, hkept⟩ := hsound.setAnchor_whole (hindex r.1 ▸ hfree) hnone hv (hwhole.trans (hindex r.1).symm)
        henclosing (hkids r.1 ▸ hknown)
      refine composes_ok hkept hfinal fun m hm => ?_
      obtain rfl := List.mem_singleton.1 hm
      exact hfinal.known _ (mem_setAnchor.2 (.inl rfl))

theorem composes_items {read : Reader → Except Error (List Node × Reader)} {tag : Tag} (hs : s.Sound)
    (hfree : anchor.isSome = true → s.Free mark.index)
    (hread : ∀ v : Reader, v.Sound → v.Composes Prod.snd Prod.fst (read v)) :
    s.Composes Prod.snd (fun r => [r.1]) (do
      s.reserveAnchor mark anchor
      let (n, v) ← (do
        let (items, v) ← read (s.setAnchor (sequence ⟨tag, mark, anchor.isSome, true⟩ []) anchor)
        return (sequence ⟨tag, mark, anchor.isSome, false⟩ items, v))
      return (n, v.setAnchor n anchor)) :=
  composes_collect (f := sequence ⟨tag, mark, anchor.isSome, false⟩) hs hfree rfl rfl rfl (fun _ => rfl) (fun _ => rfl)
    (fun _ => rfl) hread

theorem composes_entries {read : Reader → Except Error (List (Node × Node) × Reader)} {tag : Tag} (hs : s.Sound)
    (hfree : anchor.isSome = true → s.Free mark.index)
    (hread : ∀ v : Reader, v.Sound → v.Composes Prod.snd (fun r => entryNodes r.1) (read v)) :
    s.Composes Prod.snd (fun r => [r.1]) (do
      s.reserveAnchor mark anchor
      let (n, v) ← (do
        let (entries, v) ← read (s.setAnchor (mapping ⟨tag, mark, anchor.isSome, true⟩ []) anchor)
        return (mapping ⟨tag, mark, anchor.isSome, false⟩ entries, v))
      return (n, v.setAnchor n anchor)) :=
  composes_collect (f := mapping ⟨tag, mark, anchor.isSome, false⟩) hs hfree rfl rfl rfl (fun _ => rfl) (fun _ => rfl)
    (fun _ => rfl) hread

end Anchors

end NoteVault.Yaml.Node.Reader
