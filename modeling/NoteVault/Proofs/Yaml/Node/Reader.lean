import NoteVault.Proofs.Yaml.Kinds
import NoteVault.Yaml.Node

/-!
What the reader makes of the tokens of a node: its properties, and the scalar or the collection behind them.
-/
namespace NoteVault.Yaml.Node.Reader

variable {s u v : Reader} {t : Token} {k : TokenKind} {ks rest : List TokenKind} {ρ : Nat → Nat} {fuel : Nat}
  {position : Position} {p : Properties} {tag : Option String} {text : String} {style : Style}

/-- The tokens that are left are of the given kinds, and an anchor of number `n` begins at `ρ n`. -/
structure Ready (ρ : Nat → Nat) (s : Reader) (kinds : List TokenKind) : Prop where
  kinds : s.tokens.map Token.kind = kinds
  handles : s.handles = defaultHandles
  places : ∀ t ∈ s.tokens, ∀ n, t.kind = .anchor (String.ofList (Content.anchorName n)) → ρ n = t.start.index

theorem Ready.token (h : Ready ρ s (k :: ks)) : ∃ t ∈ s.tokens, s.peek = .ok t ∧ t.kind = k := by
  cases hs : s.tokens with
  | nil => exact absurd (hs ▸ h.kinds) (by simp)
  | cons t ts =>
    refine ⟨t, by simp, by rw [peek, hs], ?_⟩
    exact (List.cons.inj (hs ▸ h.kinds)).1

theorem Ready.next (h : Ready ρ s (k :: ks)) : Ready ρ s.next ks where
  kinds := by rw [Reader.next, List.map_tail, h.kinds]; rfl
  handles := h.handles
  places := fun t ht => h.places t (List.mem_of_mem_tail ht)

theorem Ready.setAnchor (h : Ready ρ s ks) (n : Node) (anchor : Option String) : Ready ρ (s.setAnchor n anchor) ks := by
  cases anchor with
  | none => exact h
  | some name => exact ⟨h.kinds, h.handles, h.places⟩

@[simp] theorem anchors_next (s : Reader) : s.next.anchors = s.anchors := rfl

theorem anchors_setAnchor (h : u.anchors = s.anchors) (n : Node) (anchor : Option String) :
    (u.setAnchor n anchor).anchors = (s.setAnchor n anchor).anchors := by
  cases anchor with
  | none => exact h
  | some name => rw [setAnchor, setAnchor, h]

theorem find_setAnchor (s : Reader) (n : Node) (name other : String) :
    (s.setAnchor n (some name)).anchors.find? (·.name = other) =
      if name = other then some ⟨other, n⟩ else s.anchors.find? (·.name = other) := by
  rw [setAnchor, List.find?_cons]
  by_cases h : name = other
  · simp [h]
  · rw [if_neg h, decide_eq_false h, List.find?_filter]
    refine congrArg (List.find? · s.anchors) (funext fun a => ?_)
    by_cases ha : a.name = other
    · simp [ha, Ne.symm h]
    · simp [ha]

/-- Neither an anchor nor a tag, nor an alias. -/
def isPlainKind : TokenKind → Bool
  | .anchor _ | .tag _ | .aliasName _ => false
  | _ => true

/-- The properties of a node, the state behind them, and the token of what follows. -/
structure Front (s : Reader) (p : Properties) (tag : Option String) (u : Reader) (t : Token) : Prop where
  first : ∃ t, s.peek = .ok t ∧ ∀ name, t.kind ≠ .aliasName name
  properties : s.properties = .ok (p, u)
  tagText : u.tagText p.start p.tag = .ok tag
  peek : u.peek = .ok t

/-- Where a node with these properties begins. -/
def Front.mark (_ : Front s p tag u t) : Mark := p.start.getD t.start

theorem reserveAnchor_none (s : Reader) {m : Mark} : s.reserveAnchor m none = .ok () := rfl

theorem reserveAnchor_fresh {m : Mark} {anchor : Option String}
    (h : ∀ name, anchor = some name → s.anchors.find? (·.name = name) = none) : s.reserveAnchor m anchor = .ok () := by
  cases anchor with
  | none => rfl
  | some name => rw [reserveAnchor, h name rfl]

theorem node_alias {name : String} {a : Anchor} (hpeek : s.peek = .ok t) (ht : t.kind = .aliasName name)
    (ha : s.anchors.find? (·.name = name) = some a) : node (fuel + 1) position s = .ok (a.node, s.next) := by
  rw [node]
  simp only [hpeek, ht, lookupAlias, ha, bind, Except.bind, pure, Except.pure]

theorem node_scalar (h : Front s p tag u t) (ht : t.kind = .scalar text style) (hp : p.anchor = none) :
    node (fuel + 1) position s =
      .ok (scalar ⟨(specific tag).getD (scalarTag tag text style), h.mark, false, false⟩ text, u.next) := by
  obtain ⟨f, hf, hal⟩ := h.first
  rw [node]
  simp only [hf, h.properties, h.tagText, h.peek, ht, hp, bind, Except.bind, pure, Except.pure,
    reserveAnchor_none u.next]
  rfl

/-- A sequence in brackets without items. -/
theorem node_noItems (h : Front s p tag u t) (ht : t.kind = .flowSequenceStart) (hp : p.anchor = none)
    {e : Token} (he : u.next.peek = .ok e) (hek : e.kind = .flowSequenceEnd) :
    node (fuel + 2) position s = .ok (sequence ⟨(specific tag).getD .seq, h.mark, false, false⟩ [], u.next.next) := by
  obtain ⟨f, hf, hal⟩ := h.first
  rw [node]
  simp only [hf, h.properties, h.tagText, h.peek, ht, hp, bind, Except.bind, pure, Except.pure, flowItems,
    reserveAnchor_none u, setAnchor, he, hek]
  rfl

theorem node_items (h : Front s p tag u t) (ht : t.kind = .blockSequenceStart) (hp : p.anchor = none)
    (hpos : position ≠ .flow) {items : List Node} (hitems : blockItems fuel t.start u.next = .ok (items, v)) :
    node (fuel + 1) position s = .ok (sequence ⟨(specific tag).getD .seq, h.mark, false, false⟩ items, v) := by
  obtain ⟨f, hf, hal⟩ := h.first
  rw [node]
  simp only [hf, h.properties, h.tagText, h.peek, ht, hp, bind, Except.bind, pure, Except.pure,
    reserveAnchor_none u, setAnchor]
  cases position with
  | flow => exact absurd rfl hpos
  | block => simp only [hitems]; rfl
  | afterKey => simp only [hitems]; rfl

/-- What an anchor of a mapping names while the mapping is being read. -/
def Front.whole (h : Front s p tag u t) : Node :=
  mapping ⟨(specific tag).getD .map, h.mark, p.anchor.isSome, true⟩ []

/-- A mapping in braces without entries. -/
theorem node_noEntries (h : Front s p tag u t) (ht : t.kind = .flowMappingStart)
    (hp : ∀ name, p.anchor = some name → u.anchors.find? (·.name = name) = none)
    {e : Token} (he : u.next.peek = .ok e) (hek : e.kind = .flowMappingEnd) :
    node (fuel + 2) position s =
      let n := mapping ⟨(specific tag).getD .map, h.mark, p.anchor.isSome, false⟩ []
      .ok (n, (u.setAnchor h.whole p.anchor).next.next.setAnchor n p.anchor) := by
  obtain ⟨f, hf, hal⟩ := h.first
  have he : (u.setAnchor h.whole p.anchor).next.peek = .ok e := by cases p.anchor <;> exact he
  rw [node]
  simp only [hf, h.properties, h.tagText, h.peek, ht, bind, Except.bind, pure, Except.pure, flowEntries,
    reserveAnchor_fresh hp]
  rw [Front.whole, Front.mark] at he
  simp only [he, hek]
  rfl

theorem node_entries (h : Front s p tag u t) (ht : t.kind = .blockMappingStart) (hpos : position ≠ .flow)
    (hp : ∀ name, p.anchor = some name → u.anchors.find? (·.name = name) = none) {entries : List (Node × Node)}
    (hentries : blockEntries fuel t.start (u.setAnchor h.whole p.anchor).next = .ok (entries, v)) :
    node (fuel + 1) position s =
      let n := mapping ⟨(specific tag).getD .map, h.mark, p.anchor.isSome, false⟩ entries
      .ok (n, v.setAnchor n p.anchor) := by
  obtain ⟨f, hf, hal⟩ := h.first
  rw [Front.whole, Front.mark] at hentries
  rw [node]
  simp only [hf, h.properties, h.tagText, h.peek, ht, bind, Except.bind, pure, Except.pure, reserveAnchor_fresh hp]
  cases position with
  | flow => exact absurd rfl hpos
  | block => simp only [hentries]; rfl
  | afterKey => simp only [hentries]; rfl

/-- The tokens of a tag, if one is written. -/
def tagKinds : Option Tag → List TokenKind
  | none => []
  | some tag => [Content.tagKind tag]

/-- The tag of a content, if it is written. -/
def givenTag (shown : Bool) (tag : Tag) : Option Tag := if shown then some tag else none

theorem tagKinds_givenTag (shown : Bool) (tag : Tag) :
    tagKinds (givenTag shown tag) = if shown then [Content.tagKind tag] else [] := by
  cases shown <;> rfl

theorem isStandard_of_mem_givenTag (shown : Bool) {tag : Tag} (htag : tag.isStandard = true) :
    ∀ t ∈ givenTag shown tag, t.isStandard = true := by
  cases shown <;> simp [givenTag, htag]

theorem specific_standard {tag : Tag} (h : tag.isStandard = true) :
    specific (some (Tag.standard ++ String.ofList tag.shortName)) = some tag := by
  cases tag with
  | other text => exact absurd h (by simp [Tag.isStandard])
  | _ => decide

theorem tagText_standard {start : Option Mark} {tag : Tag} {m : Mark} (h : s.handles = defaultHandles) :
    s.tagText start (some (⟨some "!!", String.ofList tag.shortName⟩, m)) =
      .ok (some (Tag.standard ++ String.ofList tag.shortName)) := by
  rw [tagText, h, show defaultHandles.lookup "!!" = some Tag.standard by decide]

/-- The properties of a node as they are written. -/
theorem front (anchor : Option Nat) (given : Option Tag) (k : TokenKind) (ks : List TokenKind)
    (htag : ∀ tag ∈ given, tag.isStandard = true)
    (h : Ready ρ s (Content.anchorKinds anchor ++ tagKinds given ++ k :: ks)) (hk : isPlainKind k = true) :
    ∃ p tag u t, ∃ f : Front s p tag u t,
      t.kind = k ∧ p.anchor = anchor.map (String.ofList <| Content.anchorName ·) ∧ specific tag = given ∧
      tag.isSome = given.isSome ∧ (∀ n ∈ anchor, f.mark.index = ρ n) ∧ Ready ρ u (k :: ks) ∧ u.anchors = s.anchors := by
  have hnot : ∀ {t : Token}, t.kind = k → (∀ name, t.kind ≠ .aliasName name) ∧ (∀ name, t.kind ≠ .anchor name) ∧
      ∀ text, t.kind ≠ .tag text := by
    rintro t rfl
    refine ⟨?_, ?_, ?_⟩ <;> intro x hx <;> rw [hx] at hk <;> exact absurd hk (by simp [isPlainKind])
  cases anchor with
  | none =>
    cases given with
    | none =>
      obtain ⟨t, -, hpeek, ht⟩ := h.token
      obtain ⟨hal, han, hta⟩ := hnot ht
      refine ⟨⟨none, none, none⟩, none, s, t, ⟨⟨t, hpeek, hal⟩, ?_, rfl, hpeek⟩, ht, rfl, rfl, rfl, by simp, h, rfl⟩
      simp only [properties, hpeek, bind, Except.bind, pure, Except.pure]
    | some tag =>
      obtain ⟨a, -, hpeek, ha⟩ := Ready.token (k := Content.tagKind tag) h
      have hnext : Ready ρ s.next (k :: ks) := Ready.next (k := Content.tagKind tag) h
      obtain ⟨t, -, hpeek', ht⟩ := hnext.token
      obtain ⟨-, han, -⟩ := hnot ht
      refine ⟨⟨none, some (⟨some "!!", String.ofList tag.shortName⟩, a.start), some a.start⟩, _, s.next, t,
        ⟨⟨a, hpeek, by simp [ha, Content.tagKind]⟩, ?_, tagText_standard hnext.handles, hpeek'⟩, ht, rfl,
        specific_standard (htag tag rfl), rfl, by simp, hnext, rfl⟩
      simp only [properties, hpeek, hpeek', ha, Content.tagKind, bind, Except.bind, pure, Except.pure]
  | some n =>
    obtain ⟨a, hmem, hpeek, ha⟩ := Ready.token (k := .anchor (String.ofList (Content.anchorName n))) h
    have hplace : ∀ m ∈ some n, a.start.index = ρ m := by
      rintro m ⟨⟩
      exact (h.places a hmem n ha).symm
    cases given with
    | none =>
      have hnext : Ready ρ s.next (k :: ks) := Ready.next (k := .anchor (String.ofList (Content.anchorName n))) h
      obtain ⟨t, -, hpeek', ht⟩ := hnext.token
      obtain ⟨-, -, hta⟩ := hnot ht
      refine ⟨⟨some (String.ofList (Content.anchorName n)), none, some a.start⟩, none, s.next, t,
        ⟨⟨a, hpeek, by simp [ha]⟩, ?_, rfl, hpeek'⟩, ht, rfl, rfl, rfl, hplace, hnext, rfl⟩
      simp only [properties, hpeek, hpeek', ha, bind, Except.bind, pure, Except.pure]
    | some tag =>
      have hnext : Ready ρ s.next (Content.tagKind tag :: k :: ks) :=
        Ready.next (k := .anchor (String.ofList (Content.anchorName n))) h
      obtain ⟨b, -, hpeek', hb⟩ := hnext.token
      obtain ⟨t, -, hpeek'', ht⟩ := hnext.next.token
      refine ⟨⟨some (String.ofList (Content.anchorName n)), some (⟨some "!!", String.ofList tag.shortName⟩, b.start),
        some a.start⟩, _, s.next.next, t, ⟨⟨a, hpeek, by simp [ha]⟩, ?_, tagText_standard hnext.handles, hpeek''⟩,
        ht, rfl, specific_standard (htag tag rfl), rfl, hplace, hnext.next, rfl⟩
      simp only [properties, hpeek, hpeek', ha, hb, Content.tagKind, bind, Except.bind, pure, Except.pure]

end NoteVault.Yaml.Node.Reader
