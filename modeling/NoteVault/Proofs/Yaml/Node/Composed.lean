import NoteVault.Proofs.Yaml.Node.Anchors

/-!
Nodes as they are composed from any tokens. What carries an anchor begins at a property of its own, and an alias gives
the node that its anchor names, so that nodes with an anchor that begin at one place are one node.
-/
namespace NoteVault.Yaml.Node

namespace Reader

section Properties

variable {s u : Reader}

/-- The properties of a node are taken; what has an anchor begins at a place of its own. -/
theorem composes_properties (hs : s.Sound) : s.Composes Prod.snd (fun _ => []) s.properties := by
  refine composes_peek fun t _ => ?_
  split
  · refine .of_extends (extends_next s) (composes_peek fun u _ => ?_)
    split
    · exact composes_ok (extends_next s.next) hs.next.next nofun
    · exact composes_ok (.refl _) hs.next nofun
  · refine .of_extends (extends_next s) (composes_peek fun u _ => ?_)
    split
    · exact composes_ok (extends_next s.next) hs.next.next nofun
    · exact composes_ok (.refl _) hs.next nofun
  · exact composes_ok (.refl s) hs nofun

theorem free_of_properties (hs : s.Sound) {p : Properties} (h : s.properties = .ok (p, u))
    (hp : p.anchor.isSome = true) (m : Mark) : u.Free (p.start.getD m).index := by
  obtain ⟨t, ht, h⟩ := bind_eq_ok.1 h
  split at h
  next name hname =>
    have hfree := hs.free ht (by rw [hname, isProperty])
    obtain ⟨_, -, h⟩ := bind_eq_ok.1 h
    split at h <;> cases h
    · exact hfree.next
    · exact hfree
  next tag htag =>
    have hfree := hs.free ht (by rw [htag, isProperty])
    obtain ⟨_, -, h⟩ := bind_eq_ok.1 h
    split at h <;> cases h
    · exact hfree.next
    · exact hfree
  next =>
    cases h
    cases hp

theorem composes_withProperties {β : Type} {state : β → Reader} {nodes : β → List Node}
    {f : Properties × Reader → Except Error β} (hs : s.Sound)
    (hf : ∀ (p : Properties) (u : Reader), u.Sound → (p.anchor.isSome = true → ∀ m, u.Free (p.start.getD m).index) →
      u.Composes state nodes (f (p, u))) : s.Composes state nodes (s.properties >>= f) := by
  have hproperties := composes_properties hs
  cases hp : s.properties with
  | error e => exact composes_error (hproperties.fails e hp)
  | ok r =>
    obtain ⟨hext, hu, -⟩ := hproperties.made r hp
    exact (hf r.1 r.2 hu fun hanchor => free_of_properties hs hp hanchor).of_extends hext

theorem tagText_error {start : Option Mark} {tag : Option (TagText × Mark)} {e : Error}
    (h : s.tagText start tag = .error e) : ∃ f, e = .fault f := by
  unfold tagText at h
  split at h
  · cases h
  · cases h
  · split at h
    · cases h
    · cases h
      exact ⟨_, rfl⟩

theorem composes_alias (hs : s.Sound) (name : String) (mark : Mark) :
    s.Composes Prod.snd (fun r => [r.1]) (s.lookupAlias name mark >>= fun n => .ok (n, s.next)) := by
  unfold lookupAlias
  cases hfind : s.anchors.find? (·.name = name) with
  | none => exact composes_refuse
  | some a =>
    refine composes_ok (extends_next s) hs.next fun m hm => ?_
    obtain rfl := List.mem_singleton.1 hm
    exact hs.known a (List.mem_of_find?_eq_some hfind)

end Properties

section Nodes

variable {s : Reader} {fuel : Nat} {β : Type} {state : β → Reader} {nodes : β → List Node}

theorem Composes.bindNode {x : Except Error (Node × Reader)} {f : Node × Reader → Except Error β}
    (h : s.Composes Prod.snd (fun r => [r.1]) x)
    (hf : ∀ n (u : Reader), s.Extends u → u.Sound → u.Records n → u.Composes state nodes (f (n, u))) :
    s.Composes state nodes (x >>= f) :=
  h.bind fun r hext hr hknown => hf r.1 r.2 hext hr (hknown r.1 (List.mem_singleton_self _))

theorem composes_empty (hs : s.Sound) (m : Mark) : s.Composes Prod.snd (fun r => [r.1]) (.ok (empty m, s)) :=
  composes_ok (.refl s) hs fun _ hn => List.mem_singleton.1 hn ▸ s.records_empty m

/-- Every reader of a part of a document extends what has been read. -/
structure ReadsSound (fuel : Nat) : Prop where
  node : ∀ position (s : Reader), s.Sound → s.Composes Prod.snd (fun r => [r.1]) (node fuel position s)
  blockItems : ∀ start (s : Reader), s.Sound → s.Composes Prod.snd Prod.fst (blockItems fuel start s)
  looseItems : ∀ s : Reader, s.Sound → s.Composes Prod.snd Prod.fst (looseItems fuel s)
  blockEntries : ∀ start (s : Reader), s.Sound →
    s.Composes Prod.snd (fun r => entryNodes r.1) (blockEntries fuel start s)
  blockPart : ∀ sign (s : Reader), s.Sound → s.Composes Prod.snd (fun r => [r.1]) (blockPart fuel sign s)
  flowItems : ∀ start first (s : Reader), s.Sound → s.Composes Prod.snd Prod.fst (flowItems fuel start first s)
  flowPair : ∀ sign (s : Reader), s.Sound → s.Composes Prod.snd (fun r => [r.1]) (flowPair fuel sign s)
  flowEntries : ∀ start first (s : Reader), s.Sound →
    s.Composes Prod.snd (fun r => entryNodes r.1) (flowEntries fuel start first s)

/-- An item, and the items behind it. -/
theorem Composes.items {x : Except Error (Node × Reader)} {read : Reader → Except Error (List Node × Reader)}
    (hx : s.Composes Prod.snd (fun r => [r.1]) x)
    (hread : ∀ u : Reader, u.Sound → u.Composes Prod.snd Prod.fst (read u)) : s.Composes Prod.snd Prod.fst (do
      let (item, s) ← x
      let (items, s) ← read s
      return (item :: items, s)) :=
  hx.bindNode fun _ u _ hu hitem => (hread u hu).bind fun r hext hr hitems =>
    composes_ok (.refl r.2) hr (List.forall_mem_cons.2 ⟨hitem.mono hext, hitems⟩)

theorem ReadsSound.blockItems_succ (h : ReadsSound fuel) (start : Mark) (s : Reader) (hs : s.Sound) :
    s.Composes Prod.snd Prod.fst (Reader.blockItems (fuel + 1) start s) := by
  rw [Reader.blockItems]
  refine composes_peek fun t _ => ?_
  split
  · refine .of_extends (extends_next s) (composes_peek fun u _ => ?_)
    dsimp only
    split
    · exact (composes_empty hs.next _).items (h.blockItems start)
    · exact (composes_empty hs.next _).items (h.blockItems start)
    · exact (h.node .block _ hs.next).items (h.blockItems start)
  · exact composes_ok (extends_next s) hs.next nofun
  · exact composes_refuse

theorem ReadsSound.looseItems_succ (h : ReadsSound fuel) (s : Reader) (hs : s.Sound) :
    s.Composes Prod.snd Prod.fst (Reader.looseItems (fuel + 1) s) := by
  rw [Reader.looseItems]
  refine composes_peek fun t _ => ?_
  split
  · refine .of_extends (extends_next s) (composes_peek fun u _ => ?_)
    dsimp only
    split
    · exact (composes_empty hs.next _).items h.looseItems
    · exact (composes_empty hs.next _).items h.looseItems
    · exact (composes_empty hs.next _).items h.looseItems
    · exact (composes_empty hs.next _).items h.looseItems
    · exact (h.node .block _ hs.next).items h.looseItems
  · exact composes_ok (.refl s) hs nofun

/-- The value of a key, and the entries behind it. -/
theorem Composes.entries {key : Node} {x : Except Error (Node × Reader)}
    {read : Reader → Except Error (List (Node × Node) × Reader)} (hx : s.Composes Prod.snd (fun r => [r.1]) x)
    (hkey : s.Records key) (hread : ∀ u : Reader, u.Sound → u.Composes Prod.snd (fun r => entryNodes r.1) (read u)) :
    s.Composes Prod.snd (fun r => entryNodes r.1) (do
      let (value, s) ← x
      let (entries, s) ← read s
      return ((key, value) :: entries, s)) :=
  hx.bindNode fun _ u hext hu hvalue => (hread u hu).bind fun r hext' hr hentries =>
    composes_ok (.refl r.2) hr (List.forall_mem_cons.2
      ⟨hkey.mono (hext.trans hext'), List.forall_mem_cons.2 ⟨hvalue.mono hext', hentries⟩⟩)

theorem ReadsSound.blockEntries_succ (h : ReadsSound fuel) (start : Mark) (s : Reader) (hs : s.Sound) :
    s.Composes Prod.snd (fun r => entryNodes r.1) (Reader.blockEntries (fuel + 1) start s) := by
  rw [Reader.blockEntries]
  refine composes_peek fun t _ => ?_
  split
  · refine .of_extends (extends_next s) ((h.blockPart t _ hs.next).bindNode fun key v _ hv hkey =>
      composes_peek fun w _ => ?_)
    dsimp only
    split
    · exact .of_extends (extends_next v)
        ((h.blockPart w _ hv.next).entries (hkey.mono (extends_next v)) (h.blockEntries start))
    · exact (composes_empty hv _).entries hkey (h.blockEntries start)
  · exact composes_ok (extends_next s) hs.next nofun
  · exact composes_refuse

theorem ReadsSound.blockPart_succ (h : ReadsSound fuel) (sign : Token) (s : Reader) (hs : s.Sound) :
    s.Composes Prod.snd (fun r => [r.1]) (Reader.blockPart (fuel + 1) sign s) := by
  rw [Reader.blockPart]
  refine composes_peek fun t _ => ?_
  split
  · exact composes_empty hs _
  · exact composes_empty hs _
  · exact composes_empty hs _
  · exact h.node .afterKey _ hs

/-- The items in brackets behind the comma. -/
theorem ReadsSound.flowItems_rest (h : ReadsSound fuel) (start : Mark) (s : Reader) (hs : s.Sound) :
    s.Composes Prod.snd Prod.fst (do
      let u ← s.peek
      match u.kind with
      | .flowSequenceEnd => return ([], s.next)
      | _ =>
        let (item, s) ← match u.kind with
          | .key => Reader.flowPair fuel u s.next
          | _ => Reader.node fuel .flow s
        let (items, s) ← Reader.flowItems fuel start false s
        return (item :: items, s)) := by
  refine composes_peek fun u _ => ?_
  split
  · exact composes_ok (extends_next s) hs.next nofun
  · dsimp only
    split
    · exact .of_extends (extends_next s) ((h.flowPair u _ hs.next).items (h.flowItems start false))
    · exact (h.node .flow s hs).items (h.flowItems start false)

theorem ReadsSound.flowItems_succ (h : ReadsSound fuel) (start : Mark) (first : Bool) (s : Reader) (hs : s.Sound) :
    s.Composes Prod.snd Prod.fst (Reader.flowItems (fuel + 1) start first s) := by
  rw [Reader.flowItems]
  refine composes_peek fun t _ => ?_
  split
  · exact composes_ok (extends_next s) hs.next nofun
  · dsimp only
    split
    · exact h.flowItems_rest start s hs
    · exact .of_extends (extends_next s) (h.flowItems_rest start _ hs.next)
    · exact composes_refuse

/-- A mapping of one entry, from its key and its value. -/
theorem Composes.pair {key : Node} {x : Except Error (Node × Reader)} (hx : s.Composes Prod.snd (fun r => [r.1]) x)
    (hkey : s.Records key) (mark : Mark) : s.Composes Prod.snd (fun r => [r.1]) (do
      let (value, s) ← x
      return (mapping ⟨.map, mark, false, false⟩ [(key, value)], s)) :=
  hx.bindNode fun value u hext hu hvalue => composes_ok (.refl u) hu fun n hn => by
    obtain rfl := List.mem_singleton.1 hn
    exact records_of_children rfl
      (List.forall_mem_cons.2 ⟨hkey.mono hext, List.forall_mem_cons.2 ⟨hvalue, List.forall_mem_nil _⟩⟩)

/-- The value behind the key of a mapping of one entry, which may be missing. -/
theorem ReadsSound.flowPair_value (h : ReadsSound fuel) (mark : Mark) {key : Node} (hs : s.Sound)
    (hkey : s.Records key) : s.Composes Prod.snd (fun r => [r.1]) (do
      let u ← s.peek
      let (value, s) ← match u.kind with
        | .value => do
          let w ← s.next.peek
          match w.kind with
          | .flowEntry | .flowSequenceEnd => pure (empty u.stop, s.next)
          | _ => Reader.node fuel .flow s.next
        | _ => pure (empty u.start, s)
      return (mapping ⟨.map, mark, false, false⟩ [(key, value)], s)) := by
  refine composes_peek fun u _ => ?_
  dsimp only
  split
  · have hkey := hkey.mono (extends_next s)
    refine .of_extends (extends_next s) (composes_peek fun w _ => ?_)
    split
    · exact (composes_empty hs.next _).pair hkey mark
    · exact (composes_empty hs.next _).pair hkey mark
    · exact (h.node .flow _ hs.next).pair hkey mark
  · exact (composes_empty hs _).pair hkey mark

theorem ReadsSound.flowPair_succ (h : ReadsSound fuel) (sign : Token) (s : Reader) (hs : s.Sound) :
    s.Composes Prod.snd (fun r => [r.1]) (Reader.flowPair (fuel + 1) sign s) := by
  rw [Reader.flowPair]
  refine composes_peek fun t _ => ?_
  dsimp only
  split
  · exact (composes_empty hs _).bindNode fun key v _ hv hkey => h.flowPair_value sign.start hv hkey
  · exact (composes_empty hs _).bindNode fun key v _ hv hkey => h.flowPair_value sign.start hv hkey
  · exact (composes_empty hs _).bindNode fun key v _ hv hkey => h.flowPair_value sign.start hv hkey
  · exact (h.node .flow s hs).bindNode fun key v _ hv hkey => h.flowPair_value sign.start hv hkey

/-- The value behind a key in braces, which may be missing, and the entries behind it. -/
theorem ReadsSound.flowEntries_value (h : ReadsSound fuel) (start : Mark) {key : Node} (hs : s.Sound)
    (hkey : s.Records key) : s.Composes Prod.snd (fun r => entryNodes r.1) (do
      let u ← s.peek
      let (value, s) ← match u.kind with
        | .value => do
          let w ← s.next.peek
          match w.kind with
          | .flowEntry | .flowMappingEnd => pure (empty u.stop, s.next)
          | _ => Reader.node fuel .flow s.next
        | _ => pure (empty u.start, s)
      let (entries, s) ← Reader.flowEntries fuel start false s
      return ((key, value) :: entries, s)) := by
  refine composes_peek fun u _ => ?_
  dsimp only
  split
  · have hkey := hkey.mono (extends_next s)
    refine .of_extends (extends_next s) (composes_peek fun w _ => ?_)
    split
    · exact (composes_empty hs.next _).entries hkey (h.flowEntries start false)
    · exact (composes_empty hs.next _).entries hkey (h.flowEntries start false)
    · exact (h.node .flow _ hs.next).entries hkey (h.flowEntries start false)
  · exact (composes_empty hs _).entries hkey (h.flowEntries start false)

/-- The entries in braces behind the comma. -/
theorem ReadsSound.flowEntries_rest (h : ReadsSound fuel) (start : Mark) (s : Reader) (hs : s.Sound) :
    s.Composes Prod.snd (fun r => entryNodes r.1) (do
      let u ← s.peek
      match u.kind with
      | .flowMappingEnd => return ([], s.next)
      | .key =>
        let k ← s.next.peek
        let (key, s) ← match k.kind with
          | .value | .flowEntry | .flowMappingEnd => pure (empty u.stop, s.next)
          | _ => Reader.node fuel .flow s.next
        let v ← s.peek
        let (value, s) ← match v.kind with
          | .value => do
            let w ← s.next.peek
            match w.kind with
            | .flowEntry | .flowMappingEnd => pure (empty v.stop, s.next)
            | _ => Reader.node fuel .flow s.next
          | _ => pure (empty v.start, s)
        let (entries, s) ← Reader.flowEntries fuel start false s
        return ((key, value) :: entries, s)
      | _ =>
        let (key, s) ← Reader.node fuel .flow s
        let v ← s.peek
        let (entries, s) ← Reader.flowEntries fuel start false s
        return ((key, empty v.start) :: entries, s)) := by
  refine composes_peek fun u _ => ?_
  dsimp only
  split
  · exact composes_ok (extends_next s) hs.next nofun
  · refine .of_extends (extends_next s) (composes_peek fun k _ => ?_)
    split
    · exact (composes_empty hs.next _).bindNode fun key v _ hv hkey => h.flowEntries_value start hv hkey
    · exact (composes_empty hs.next _).bindNode fun key v _ hv hkey => h.flowEntries_value start hv hkey
    · exact (composes_empty hs.next _).bindNode fun key v _ hv hkey => h.flowEntries_value start hv hkey
    · exact (h.node .flow _ hs.next).bindNode fun key v _ hv hkey => h.flowEntries_value start hv hkey
  · exact (h.node .flow s hs).bindNode fun key v _ hv hkey => composes_peek fun w _ =>
      (composes_empty hv _).entries hkey (h.flowEntries start false)

theorem ReadsSound.flowEntries_succ (h : ReadsSound fuel) (start : Mark) (first : Bool) (s : Reader) (hs : s.Sound) :
    s.Composes Prod.snd (fun r => entryNodes r.1) (Reader.flowEntries (fuel + 1) start first s) := by
  rw [Reader.flowEntries]
  refine composes_peek fun t _ => ?_
  split
  · exact composes_ok (extends_next s) hs.next nofun
  · dsimp only
    split
    · exact h.flowEntries_rest start s hs
    · exact .of_extends (extends_next s) (h.flowEntries_rest start _ hs.next)
    · exact composes_refuse

theorem ReadsSound.node_succ (h : ReadsSound fuel) (position : Position) (s : Reader) (hs : s.Sound) :
    s.Composes Prod.snd (fun r => [r.1]) (Reader.node (fuel + 1) position s) := by
  rw [Reader.node]
  refine composes_peek fun first _ => ?_
  split
  next name _ => exact composes_alias hs name first.start
  next =>
    refine composes_withProperties hs fun p u hu hfree =>
      composes_bind (fun e he => .inl (tagText_error he)) fun tag _ => composes_peek fun t _ => ?_
    have hfree := fun hanchor => hfree hanchor t.start
    dsimp only
    split
    · exact composes_items hu hfree fun v hv => h.looseItems v hv
    · exact .of_extends (extends_next u) (composes_single hu.next rfl rfl rfl fun hanchor => (hfree hanchor).next)
    · exact composes_items hu hfree fun v hv =>
        .of_extends (extends_next v) (h.flowItems t.start true _ hv.next)
    · exact composes_entries hu hfree fun v hv =>
        .of_extends (extends_next v) (h.flowEntries t.start true _ hv.next)
    · exact composes_items hu hfree fun v hv =>
        .of_extends (extends_next v) (h.blockItems t.start _ hv.next)
    · exact composes_items hu hfree fun v hv =>
        .of_extends (extends_next v) (h.blockItems t.start _ hv.next)
    · exact composes_entries hu hfree fun v hv =>
        .of_extends (extends_next v) (h.blockEntries t.start _ hv.next)
    · exact composes_entries hu hfree fun v hv =>
        .of_extends (extends_next v) (h.blockEntries t.start _ hv.next)
    · split
      · exact composes_single hu rfl rfl rfl hfree
      · exact composes_refuse

theorem readsSound (fuel : Nat) : ReadsSound fuel := by
  induction fuel with
  | zero =>
    constructor <;> intros <;> exact composes_refuse
  | succ fuel ih =>
    exact ⟨ih.node_succ, ih.blockItems_succ, ih.looseItems_succ, ih.blockEntries_succ, ih.blockPart_succ,
      ih.flowItems_succ, ih.flowPair_succ, ih.flowEntries_succ⟩

end Nodes

section Documents

variable {s : Reader}

theorem composes_directives (fuel : Nat) (versioned : Bool) (handles : List (String × String)) (s : Reader)
    (hs : s.Sound) : s.Composes Prod.snd (fun _ => []) (directives fuel versioned handles s) := by
  induction fuel generalizing versioned handles s with
  | zero => exact composes_ok (.refl s) hs nofun
  | succ fuel ih =>
    rw [directives]
    refine composes_peek fun t _ => ?_
    split
    · split
      · exact composes_refuse
      · split
        · exact composes_refuse
        · exact .of_extends (extends_next s) (ih _ _ _ hs.next)
    · split
      · exact composes_refuse
      · exact .of_extends (extends_next s) (ih _ _ _ hs.next)
    · exact .of_extends (extends_next s) (ih _ _ _ hs.next)
    · exact composes_ok (.refl s) hs nofun

theorem composes_skipEnds (fuel : Nat) (s : Reader) (hs : s.Sound) : s.Composes id (fun _ => []) (skipEnds fuel s) := by
  induction fuel generalizing s with
  | zero => exact composes_ok (.refl s) hs nofun
  | succ fuel ih =>
    rw [skipEnds]
    refine composes_peek fun t _ => ?_
    split
    · exact .of_extends (extends_next s) (ih _ hs.next)
    · exact composes_ok (.refl s) hs nofun

theorem composes_documentStart (hs : s.Sound) : s.Composes Prod.snd (fun _ => []) s.documentStart := by
  refine (composes_skipEnds s.tokens.length s hs).bind fun u _ hu _ => composes_peek fun t _ => ?_
  split
  · exact composes_ok (.refl u) hu nofun
  · refine (composes_directives _ false [] u hu).bind fun r _ hr _ => composes_peek fun d _ => ?_
    split
    · have hnext := hr.next
      exact composes_ok ⟨rfl, List.tail_suffix _, fun _ h => h⟩
        ⟨hnext.places, hnext.names, hnext.begins, hnext.passed, hnext.known⟩ nofun
    · exact composes_refuse

theorem composes_content (hs : s.Sound) : s.Composes Prod.snd (fun r => [r.1]) s.content := by
  refine composes_peek fun t _ => ?_
  split
  · exact composes_empty hs _
  · exact composes_empty hs _
  · exact composes_empty hs _
  · exact composes_empty hs _
  · exact (readsSound _).node .block s hs

/-- A document behind its mark, if there is one. -/
theorem composes_markedDocument (hs : s.Sound) : s.Composes Prod.snd (fun r => r.1.toList) (do
      match ← s.documentStart with
      | (none, s) => return (none, s)
      | (some _, s) =>
        let (root, s) ← s.content
        return (some root, s)) := by
  refine (composes_documentStart hs).bind fun r _ hr _ => ?_
  obtain ⟨mark, u⟩ := r
  cases mark with
  | none => exact composes_ok (.refl u) hr nofun
  | some mark => exact (composes_content hr).bind fun r hext hr hknown => composes_ok (.refl r.2) hr hknown

theorem composes_firstDocument (hs : s.Sound) : s.Composes Prod.snd (fun r => r.1.toList) s.firstDocument := by
  refine composes_peek fun t _ => ?_
  split
  · exact composes_markedDocument hs
  · exact composes_markedDocument hs
  · exact composes_markedDocument hs
  · exact ((readsSound _).node .block s hs).bind fun r hext hr hknown => composes_ok (.refl r.2) hr hknown

/-- Behind a document there is no other. -/
theorem composes_lastDocument {root : Node} (hs : s.Sound) (hknown : ∀ n ∈ (some root).toList, s.Records n)
    {v : Reader} (hv : v.Sound) (hfailure : v.failure = s.failure) : s.Composes (fun _ => s) Option.toList (do
      match ← v.documentStart with
      | (none, _) => return some root
      | (some mark, _) => refuse (some (.oneDocument, some root.head.mark)) .anotherDocument mark) := by
  refine composes_bind (fun e he => hfailure ▸ (composes_documentStart hv).fails e he) fun r _ => ?_
  obtain ⟨mark, _⟩ := r
  cases mark with
  | none => exact composes_ok (.refl s) hs hknown
  | some mark => exact composes_refuse

/-- The node of a document has been read in some state. -/
theorem exists_composes_document (hs : s.Sound) : ∃ u, s.Composes (fun _ => u) Option.toList s.document := by
  have hfirst := composes_firstDocument hs
  unfold document
  cases h : s.firstDocument with
  | error e => exact ⟨s, composes_error (hfirst.fails e h)⟩
  | ok r =>
    obtain ⟨hext, hu, hknown⟩ := hfirst.made r h
    obtain ⟨_ | root, u⟩ := r
    · exact ⟨u, composes_ok hext hu nofun⟩
    · refine ⟨u, .of_extends hext (composes_peek fun t _ => ?_)⟩
      dsimp only
      split
      · exact composes_lastDocument hu hknown hu.next rfl
      · exact composes_lastDocument hu hknown hu rfl

/-- Nothing has an anchor in front of the first token. -/
theorem sound_start (text : String) :
    Sound ⟨(TokenList.ofString text).tokens, (TokenList.ofString text).failure, [], defaultHandles⟩ :=
  ⟨nodup_propertyPlaces text, .nil, .nil, nofun, nofun⟩

end Documents

end Reader

/-- In a document, nodes with an anchor that begin at one place are one node. -/
theorem eq_of_ofString? {text : String} {root n m : Node} (h : ofString? text = .ok (some root)) (hn : root.Contains n)
    (hm : root.Contains m) (hnamed : n.IsNamed) (hmnamed : m.IsNamed) (hindex : n.index = m.index) : n = m := by
  obtain ⟨u, hu⟩ := Reader.exists_composes_document (Reader.sound_start text)
  obtain ⟨-, hsound, hknown⟩ := hu.made _ h
  have hroot : u.Records root := hknown root (List.mem_singleton_self root)
  obtain ⟨a, ha, rfl⟩ := hroot n hn hnamed
  obtain ⟨b, hb, rfl⟩ := hroot m hm hmnamed
  rw [List.inj_on_of_nodup_map hsound.begins ha hb hindex]

end NoteVault.Yaml.Node
