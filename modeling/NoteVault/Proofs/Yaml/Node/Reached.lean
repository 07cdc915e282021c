import NoteVault.Proofs.Yaml.Node.Refusal

/-!
A document that has a value has been read as a whole: nothing in it that is read for its value is at fault or without
a value. Reading goes level by level and passes over collections that it knows, so what has been read at some time is
told up to the collections that wait or are being read; when none of them is left, all has been read.
-/
namespace NoteVault.Yaml.Node

theorem depth_lt_of_opens {n m : Node} (h : n.Opens m) : m.depth < n.depth := by
  cases h with
  | item _ hm => exact depth_lt_of_item hm
  | pair _ ho hm =>
    have := depth_lt_of_mem_itemPairs ho
    obtain rfl | rfl := hm <;> omega
  | key _ hpairs ho _ => exact (depth_lt_of_flatEntries hpairs _ ho).1
  | value _ hpairs ho => exact (depth_lt_of_flatEntries hpairs _ ho).2

theorem not_opens {n m : Node} (hparts : n.hasParts = false) : ¬ n.Opens m := by
  refine fun h => Bool.eq_false_iff.1 hparts (hasParts_iff.2 ?_)
  cases h with
  | item htag _ => exact .inl htag
  | pair htag _ _ => exact .inr (.inl htag)
  | key htag _ _ _ | value htag _ _ => exact .inr (.inr htag)

/-- Nothing keeps a node from having a value, its parts apart. -/
def Passes (n : Node) : Prop := ¬ n.IsFaulty ∧ ¬ n.HasNoValue

/-- A key is simple: no collection in it carries an anchor, and keys in it are scalars. -/
def IsSimple (key : Node) : Prop := ∀ n, key.Reads n → n.hasParts = true → n.head.anchored = false ∧
  ∀ pairs, n.flatEntries = .ok pairs → ∀ o ∈ pairs, o.1.name? ≠ none

/-- All keys that are read are simple ones. -/
def HasSimpleKeys (root : Node) : Prop := ∀ n, root.Reads n → n.head.tag = .map ∨ n.head.tag = .set →
  ∀ pairs, n.flatEntries = .ok pairs → ∀ o ∈ pairs, o.1.name? = none → o.1.IsSimple

theorem IsSimple.part {n m : Node} (h : n.IsSimple) (hm : n.Opens m) : m.IsSimple :=
  fun k hk => h k (.head hm hk)

/-- A simple key shows its integers wherever it stands. -/
theorem hasLongInteger_of_showsLong {texts : KeyTexts} {hidden : List Nat} {fuel : Nat} {inside : Bool} {n : Node}
    (h : n.ShowsLong) (hsimple : n.IsSimple) (hfuel : n.depth ≤ fuel) :
    (valueFrom texts hidden fuel inside n).hasLongInteger = true := by
  induction h generalizing fuel inside with
  | @int n i htag hi hlong =>
    obtain ⟨fuel, rfl⟩ := Nat.exists_eq_add_one.2 ((depth_pos n).trans_le hfuel)
    exact (hasLongInteger_other_iff (by rw [hasParts, htag])).2 ⟨_, hi, hlong⟩
  | @item n m htag hm _ ih =>
    obtain ⟨fuel, rfl⟩ := Nat.exists_eq_add_one.2 ((depth_pos n).trans_le hfuel)
    have hopens : n.Opens m := .item htag hm
    have := depth_lt_of_opens hopens
    refine (hasLongInteger_list_iff htag).2 ⟨?_, m, hm, ih (hsimple.part hopens) (by omega)⟩
    rw [isShown, (hsimple n .refl (hasParts_iff.2 (.inl htag))).1, Bool.false_and, Bool.not_false]
  | @pair n m o htag ho hm _ ih =>
    obtain ⟨fuel, rfl⟩ := Nat.exists_eq_add_one.2 ((depth_pos n).trans_le hfuel)
    have hopens : n.Opens m := .pair htag ho hm
    have := depth_lt_of_opens hopens
    refine (hasLongInteger_pairs_iff htag).2 ⟨?_, o, ho, m, hm, ih (hsimple.part hopens) (by omega)⟩
    rw [isShown, (hsimple n .refl (hasParts_iff.2 (.inr (.inl htag)))).1, Bool.false_and, Bool.not_false]
  | @value n pairs i o htag hpairs hi hlast _ ih =>
    obtain ⟨fuel, rfl⟩ := Nat.exists_eq_add_one.2 ((depth_pos n).trans_le hfuel)
    have hmem := List.mem_of_getElem? hi
    have hopens : n.Opens o.2 := .value (.inl htag) hpairs hmem
    have := depth_lt_of_opens hopens
    obtain ⟨hanchored, hnames⟩ := hsimple n .refl (hasParts_iff.2 (.inr (.inr (.inl htag))))
    refine (hasLongInteger_map_iff htag).2
      ⟨by rw [isShown, hanchored, Bool.false_and, Bool.not_false], pairs, hpairs, i, o, hi, fun j p hj hp => ?_,
        ih (hsimple.part hopens) (by omega)⟩
    obtain ⟨name, hname⟩ := Option.ne_none_iff_exists'.1 (hnames pairs hpairs o hmem)
    obtain ⟨other, hother⟩ := Option.ne_none_iff_exists'.1 (hnames pairs hpairs p (List.mem_of_getElem? hp))
    rw [keyText_of_name? hname, keyText_of_name? hother]
    rintro rfl
    exact hlast _ hname j p hj hp hother

/-- A collection that is read and does not stand for one around it. -/
structure IsCollection (root n : Node) : Prop where
  reads : root.Reads n
  parts : n.hasParts = true
  inner : n.head.enclosing = false

/-- Collections with an anchor that begin at one place are one collection. -/
def AnchorsAgree (root : Node) : Prop := ∀ n m, root.IsCollection n → root.IsCollection m → n.head.anchored = true →
  m.head.anchored = true → n.index = m.index → n = m

/-- A node has been read, but for some that stand in it. -/
inductive Settled (due : Node → Prop) : Node → Prop
  | due {n : Node} (h : due n) : Settled due n
  | read {n : Node} (h : n.Passes) (hparts : ∀ m, n.Opens m → Settled due m) : Settled due n

section Settled

variable {due due' : Node → Prop} {n m : Node}

theorem Settled.trans (h : Settled due n) (hdue : ∀ k, due k → Settled due' k) : Settled due' n := by
  induction h with
  | due h => exact hdue _ h
  | read hpasses _ ih => exact .read hpasses ih

theorem Settled.mono (h : Settled due n) (hdue : ∀ k, due k → due' k) : Settled due' n :=
  h.trans fun k hk => .due (hdue k hk)

/-- A node does not stand in one that is less deep. -/
theorem Settled.drop (h : Settled due m) (hdepth : m.depth < n.depth) (hdue : ∀ k, due k → k = n ∨ due' k) :
    Settled due' m := by
  induction h with
  | @due m h =>
    obtain rfl | h := hdue m h
    · exact absurd hdepth (lt_irrefl _)
    · exact .due h
  | @read m hpasses _ ih => exact .read hpasses fun k hk => ih k hk ((depth_lt_of_opens hk).trans hdepth)

end Settled

namespace Progress

variable {root : Node} {p q r : Progress} {owed : List Node} {n m : Node} {fuel : Nat} {deep : Bool}

variable (root) in
/-- A collection waits, is being read, or is known. -/
inductive Due (p : Progress) (owed : List Node) (n : Node) : Prop
  | waits (h : n ∈ p.waiting)
  | owed (h : n ∈ owed)
  | known (hn : root.IsCollection n) (h : p.knows n = true)

variable (root) in
/-- Collections that wait are such, and those that are known wait, are being read, or have been read up to others that
are due. -/
structure Accounts (p : Progress) (owed : List Node) : Prop where
  waiting : ∀ n ∈ p.waiting, root.IsCollection n
  known : ∀ n, root.IsCollection n → p.knows n = true → n ∈ p.waiting ∨ n ∈ owed ∨
    (n.Passes ∧ ∀ m, n.Opens m → Settled (Due root p owed) m)

/-- Reading goes on: nothing that is known or waits is forgotten, and what waits in addition is less deep than a
bound. -/
structure Goes (depth : Nat) (p q : Progress) : Prop where
  met : ∀ i ∈ p.met, i ∈ q.met
  waiting : ∀ n ∈ p.waiting, n ∈ q.waiting
  less : ∀ n ∈ q.waiting, n ∈ p.waiting ∨ n.depth < depth

theorem Goes.refl (depth : Nat) (p : Progress) : Goes depth p p := ⟨fun _ h => h, fun _ h => h, fun _ h => .inl h⟩

theorem Goes.trans {depth : Nat} (h : Goes depth p q) (h' : Goes depth q r) : Goes depth p r :=
  ⟨fun i hi => h'.met i (h.met i hi), fun n hn => h'.waiting n (h.waiting n hn),
    fun n hn => (h'.less n hn).elim (h.less n) .inr⟩

theorem Goes.mono {depth depth' : Nat} (h : Goes depth p q) (hdepth : depth ≤ depth') : Goes depth' p q :=
  ⟨h.met, h.waiting, fun n hn => (h.less n hn).imp_right fun hlt => hlt.trans_le hdepth⟩

theorem Goes.knows {depth : Nat} (h : Goes depth p q) (hn : p.knows n = true) : q.knows n = true := by
  simp only [Progress.knows, Bool.and_eq_true, List.contains_iff_mem] at hn ⊢
  exact ⟨hn.1, h.met _ hn.2⟩

theorem Goes.due {depth : Nat} (h : Goes depth p q) (hn : Due root p owed n) : Due root q owed n := by
  cases hn with
  | waits hn => exact .waits (h.waiting n hn)
  | owed hn => exact .owed hn
  | known hn hknown => exact .known hn (h.knows hknown)

theorem Accounts.grow {o : List Node} (h : Accounts root p owed)
    (hcollections : ∀ k ∈ q.waiting, root.IsCollection k) (hmono : ∀ k, p.knows k = true → q.knows k = true)
    (hdue : ∀ k, k ∈ p.waiting ∨ k ∈ owed → k ∈ q.waiting ∨ k ∈ o)
    (hknown : ∀ k, root.IsCollection k → q.knows k = true → p.knows k = true ∨ k ∈ q.waiting ∨ k ∈ o) :
    Accounts root q o ∧ ∀ k, Due root p owed k → Due root q o k := by
  have hdue' : ∀ k, Due root p owed k → Due root q o k := fun k hk => by
    cases hk with
    | waits hk => exact (hdue k (.inl hk)).elim .waits .owed
    | owed hk => exact (hdue k (.inr hk)).elim .waits .owed
    | known hk hknown => exact .known hk (hmono k hknown)
  refine ⟨⟨hcollections, fun k hk hqk => ?_⟩, hdue'⟩
  obtain hpk | hk | hk := hknown k hk hqk
  · obtain hk | hk | ⟨hpasses, hparts⟩ := h.known k hk hpk
    · exact (hdue k (.inl hk)).imp_right .inl
    · exact (hdue k (.inr hk)).imp_right .inl
    · exact .inr (.inr ⟨hpasses, fun m hm => (hparts m hm).mono hdue'⟩)
  · exact .inl hk
  · exact .inr (.inl hk)

theorem Accounts.congr (h : Accounts root p owed) (hmet : q.met = p.met) (hwaiting : q.waiting = p.waiting) :
    Accounts root q owed := by
  have hknows : ∀ k, q.knows k = p.knows k := fun k => by rw [knows, knows, hmet]
  exact (h.grow (hwaiting ▸ h.waiting) (fun k hk => (hknows k).trans hk) (fun k hk => hwaiting ▸ hk)
    fun k _ hk => .inl ((hknows k).symm.trans hk)).1

theorem goes_of_eq (depth : Nat) (hmet : q.met = p.met) (hwaiting : q.waiting = p.waiting) : Goes depth p q := by
  refine ⟨fun i hi => ?_, fun n hn => ?_, fun n hn => .inl ?_⟩
  · rwa [hmet]
  · rwa [hwaiting]
  · rwa [← hwaiting]

theorem goes_note (depth : Nat) (p : Progress) (n : Node) : Goes depth p (p.note n) := by
  unfold note
  split
  · exact ⟨fun i hi => List.mem_cons_of_mem _ hi, fun _ h => h, fun _ h => .inl h⟩
  · exact .refl depth p

theorem waiting_note (p : Progress) (n : Node) : (p.note n).waiting = p.waiting := by
  unfold note
  split <;> rfl

/-- A collection that is known in addition is the one that has been noted. -/
theorem knows_note (hagree : root.AnchorsAgree) (hn : root.IsCollection n) (hm : root.IsCollection m)
    (h : (p.note n).knows m = true) : p.knows m = true ∨ m = n := by
  unfold note at h
  split at h
  next hanchored =>
    simp only [knows, Bool.and_eq_true, List.contains_iff_mem, List.mem_cons] at h ⊢
    obtain ⟨hm', heq | hmet⟩ := h
    · exact .inr (hagree m n hm hn hm' hanchored heq)
    · exact .inl ⟨hm', hmet⟩
  next => exact .inl h

/-- What one item does, a walk through items does. -/
theorem goes_foldlM {σ β : Type} {g : σ → Progress} {f : σ → β → Except Error σ} {P : Progress → β → Prop}
    {depth : Nat} (hmono : ∀ p q x, Goes depth p q → P p x → P q x) {xs : List β} {a b : σ}
    (hf : ∀ x ∈ xs, ∀ a b, Accounts root (g a) owed → f a x = .ok b →
      Accounts root (g b) owed ∧ Goes depth (g a) (g b) ∧ P (g b) x)
    (ha : Accounts root (g a) owed) (h : xs.foldlM f a = .ok b) :
    Accounts root (g b) owed ∧ Goes depth (g a) (g b) ∧ ∀ x ∈ xs, P (g b) x := by
  induction xs generalizing a with
  | nil =>
    cases h
    exact ⟨ha, .refl depth _, by simp⟩
  | cons x xs ih =>
    rw [List.foldlM_cons] at h
    obtain ⟨c, hc, h⟩ := bind_eq_ok.1 h
    obtain ⟨hc, hgoes, hx⟩ := hf x List.mem_cons_self a c ha hc
    obtain ⟨hb, hgoes', hxs⟩ := ih (fun y hy => hf y (List.mem_cons_of_mem _ hy)) hc h
    exact ⟨hb, hgoes.trans hgoes', List.forall_mem_cons.2 ⟨hmono _ _ x hgoes' hx, hxs⟩⟩

variable (root) in
/-- Reading a node goes on, and the node has been read up to what is due. -/
structure Settles (owed : List Node) (depth : Nat) (p q : Progress) (n : Node) : Prop where
  accounts : Accounts root q owed
  goes : Goes depth p q
  settled : Settled (Due root q owed) n

theorem settled_mono {depth : Nat} (h : Goes depth p q) (hn : Settled (Due root p owed) n) :
    Settled (Due root q owed) n :=
  hn.mono fun _ => h.due

/-- When its parts have been read, a collection has been read. -/
theorem settles_of_parts {depth : Nat} (hn : root.IsCollection n) (hpasses : n.Passes)
    (hq : Accounts root q (n :: owed)) (hgoes : Goes depth p q)
    (hparts : ∀ m, n.Opens m → Settled (Due root q (n :: owed)) m) : Settles root owed depth p (q.reveal n) n := by
  have hdue : ∀ k, Due root q (n :: owed) k → k = n ∨ Due root q owed k := fun k hk => by
    cases hk with
    | waits hk => exact .inr (.waits hk)
    | owed hk => exact (List.mem_cons.1 hk).imp_right .owed
    | known hk hknown => exact .inr (.known hk hknown)
  have hparts' : ∀ m, n.Opens m → Settled (Due root q owed) m := fun m hm =>
    (hparts m hm).drop (depth_lt_of_opens hm) hdue
  have hsettled : Settled (Due root q owed) n := .read hpasses hparts'
  have hreveal : Goes depth q (q.reveal n) := goes_of_eq depth rfl rfl
  refine ⟨Accounts.congr (p := q) ⟨hq.waiting, fun k hk hknown => ?_⟩ rfl rfl, hgoes.trans hreveal,
    settled_mono hreveal hsettled⟩
  obtain hk | hk | ⟨hpasses', hparts''⟩ := hq.known k hk hknown
  · exact .inl hk
  · obtain rfl | hk := List.mem_cons.1 hk
    · exact .inr (.inr ⟨hpasses, hparts'⟩)
    · exact .inr (.inl hk)
  · refine .inr (.inr ⟨hpasses', fun m hm => (hparts'' m hm).trans fun d hd => ?_⟩)
    obtain rfl | hd := hdue d hd
    · exact hsettled
    · exact .due hd

theorem passes_of_parts (hn : root.IsCollection n) (hseq : n.head.tag = .seq → n.kind = .sequence)
    (hpairs : n.head.tag = .omap ∨ n.head.tag = .pairs → n.ListsPairs)
    (hentries : n.head.tag = .map ∨ n.head.tag = .set → ∃ pairs, n.flatEntries = .ok pairs ∧
      ∀ o ∈ pairs, o.1.name? = none → ¬ o.1.ShowsLong) : n.Passes := by
  have hinner := hn.inner
  have hparts := hn.parts
  constructor
  · rintro (h | ⟨h, _⟩ | ⟨htag, h⟩ | ⟨htag, h⟩ | ⟨htag, h⟩)
    · exact absurd (h.symm.trans hinner) (by decide)
    · exact absurd (h.symm.trans hparts) (by decide)
    · exact h (hseq htag)
    · exact h (hpairs htag)
    · obtain ⟨pairs, hpairs, -⟩ := hentries htag
      exact absurd (h.symm.trans hpairs) nofun
  · intro h
    cases h with
    | text _ htag =>
      refine htag ?_
      obtain h | (h | h) | h | h := hasParts_iff.1 hparts
      all_goals
        rw [h]
        trivial
    | timestamp htag _ _ =>
      rw [hasParts, htag] at hparts
      cases hparts
    | scalarEntries htag heq hne =>
      obtain ⟨pairs, hpairs, -⟩ := hentries htag
      rw [heq, flatEntries, if_neg (by simpa using hne)] at hpairs
      cases hpairs
    | itemEntries htag heq hne =>
      obtain ⟨pairs, hpairs, -⟩ := hentries htag
      rw [heq, flatEntries, if_neg (by simpa using hne)] at hpairs
      cases hpairs
    | longKey htag hflat ho hkey hlong =>
      obtain ⟨pairs, hpairs, hshort⟩ := hentries htag
      obtain rfl := Except.ok.inj (hflat.symm.trans hpairs)
      exact hshort _ ho hkey hlong

/-- A scalar that has a value passes, and has no parts. -/
theorem passes_of_scalarValue {v : Value} (hinner : n.head.enclosing = false) (hparts : n.hasParts = false)
    (h : n.scalarValue = .ok v) : n.Passes := by
  have hnoParts := mt hasParts_iff.2 (Bool.eq_false_iff.1 hparts)
  constructor
  · rintro (henclosing | ⟨_, hfault⟩ | ⟨htag, _⟩ | ⟨htag, _⟩ | ⟨htag, _⟩)
    · exact absurd (henclosing.symm.trans hinner) (by decide)
    · exact absurd (h.symm.trans hfault) nofun
    · exact hnoParts (.inl htag)
    · exact hnoParts (.inr (.inl htag))
    · exact hnoParts (.inr (.inr htag))
  · have hnot : ∀ text, n.HasText text →
        ¬ (¬ n.head.tag.Takes text ∨ n.head.tag = .timestamp ∧ n.isScalar = false) := fun text htext hcause => by
      obtain ⟨e, he⟩ := (exists_scalarValue_error_iff n).2 ⟨text, htext, hcause⟩
      exact absurd (h.symm.trans he) nofun
    rintro (⟨htext, htag⟩ | ⟨htag, hkind, htext⟩ | ⟨htag, _, _⟩ | ⟨htag, _, _⟩ | ⟨htag, _, _, _, _⟩)
    · exact hnot _ htext (.inl htag)
    · refine hnot _ htext (.inr ⟨htag, ?_⟩)
      cases n with
      | mapping _ _ => rfl
      | scalar _ _ | sequence _ _ => cases hkind
    · exact hnoParts (.inr (.inr htag))
    · exact hnoParts (.inr (.inr htag))
    · exact hnoParts (.inr (.inr htag))

variable (root) in
/-- With enough fuel for a node, reading goes on and settles it. -/
structure SettlesWith (fuel : Nat) : Prop where
  meet : ∀ deep owed p q n, 2 * n.depth + 1 ≤ fuel → root.Reads n → Accounts root p owed →
    Progress.meet fuel deep p n = .ok q → Settles root owed (n.depth + 1) p q n
  fill : ∀ deep owed p q n, 2 * n.depth ≤ fuel → root.IsCollection n → Accounts root p (n :: owed) →
    Progress.fill fuel deep p n = .ok q → Settles root owed n.depth p q n
  fillPairs : ∀ deep context owed p q n, 2 * n.depth ≤ fuel + 1 → root.IsCollection n →
    n.head.tag = .omap ∨ n.head.tag = .pairs → Accounts root p owed → Progress.fillPairs fuel deep context p n = .ok q →
      Accounts root q owed ∧ Goes n.depth p q ∧ n.ListsPairs ∧
        ∀ o ∈ n.itemPairs, ∀ m, m = o.1 ∨ m = o.2 → Settled (Due root q owed) m

theorem SettlesWith.meet_succ (hagree : root.AnchorsAgree) (h : SettlesWith root fuel) (hfuel : 2 * n.depth ≤ fuel)
    (hn : root.Reads n) (hp : Accounts root p owed) (hq : Progress.meet (fuel + 1) deep p n = .ok q) :
    Settles root owed (n.depth + 1) p q n := by
  rw [Progress.meet] at hq
  split at hq
  next => cases hq
  next hinner =>
    rw [Bool.not_eq_true] at hinner
    split at hq
    next hparts =>
      rw [Bool.not_eq_true'] at hparts
      obtain ⟨v, hv⟩ := exists_map.1 ⟨q, hq⟩
      rw [hv] at hq
      cases hq
      exact ⟨hp, .refl _ p, .read (passes_of_scalarValue hinner hparts hv) fun m hm => absurd hm (not_opens hparts)⟩
    next hparts =>
      rw [Bool.not_eq_true', Bool.not_eq_false] at hparts
      have hcollection : root.IsCollection n := ⟨hn, hparts, hinner⟩
      have hnote := goes_note (n.depth + 1) p n
      split at hq
      next hknown =>
        cases hq
        exact ⟨hp, .refl _ p, .due (.known hcollection hknown)⟩
      split at hq
      next =>
        obtain ⟨hnoted, -⟩ := hp.grow (q := p.note n) (o := n :: owed) ((waiting_note p n) ▸ hp.waiting)
          (fun k => hnote.knows) (fun k hk => by rw [waiting_note]; exact hk.imp_right (List.mem_cons_of_mem n))
          fun k hk hknown => (knows_note hagree hcollection hk hknown).imp_right fun heq =>
            .inr (List.mem_cons.2 (.inl heq))
        obtain ⟨hq, hgoes, hsettled⟩ := h.fill true owed _ q n hfuel hcollection hnoted hq
        exact ⟨hq, hnote.trans (hgoes.mono (Nat.le_succ _)), hsettled⟩
      next =>
        cases hq
        obtain ⟨hnoted, -⟩ := hp.grow (q := { p.note n with waiting := n :: p.waiting }) (o := owed)
          (List.forall_mem_cons.2 ⟨hcollection, hp.waiting⟩) (fun k => hnote.knows)
          (fun k hk => hk.imp_left (List.mem_cons_of_mem n))
          fun k hk hknown => (knows_note hagree hcollection hk hknown).imp_right fun heq =>
            .inl (List.mem_cons.2 (.inl heq))
        refine ⟨hnoted, ⟨hnote.met, fun k hk => List.mem_cons_of_mem n hk, fun k hk => ?_⟩,
          .due (.waits List.mem_cons_self)⟩
        obtain rfl | hk := List.mem_cons.1 hk
        · exact .inr (Nat.lt_succ_self _)
        · exact .inl hk

theorem SettlesWith.fillPairs_succ (h : SettlesWith root fuel) {context : Context} (hfuel : 2 * n.depth ≤ fuel + 2)
    (hn : root.IsCollection n) (htag : n.head.tag = .omap ∨ n.head.tag = .pairs) (hp : Accounts root p owed)
    (hq : Progress.fillPairs (fuel + 1) deep context p n = .ok q) :
    Accounts root q owed ∧ Goes n.depth p q ∧ n.ListsPairs ∧
      ∀ o ∈ n.itemPairs, ∀ m, m = o.1 ∨ m = o.2 → Settled (Due root q owed) m := by
  rw [Progress.fillPairs.eq_def] at hq
  dsimp only at hq
  split at hq
  next whole items =>
    -- of each item its pair is kept: both parts of it have been read
    have hfold : Accounts root q owed ∧ Goes (sequence whole items).depth p q ∧ ∀ item ∈ items, ∃ head o,
        item = .mapping head [o] ∧ ∀ m, m = o.1 ∨ m = o.2 → Settled (Due root q owed) m := by
      refine goes_foldlM (g := id) (P := fun q item => ∃ head o, item = .mapping head [o] ∧
        ∀ m, m = o.1 ∨ m = o.2 → Settled (Due root q owed) m)
        (fun p q item hgoes ⟨head, o, hitem, ho⟩ => ⟨head, o, hitem, fun m hm => settled_mono hgoes (ho m hm)⟩)
        (fun item hitem a b ha hb => ?_) hp hq
      split at hb
      next head key value =>
        obtain ⟨c, hkey, hvalue⟩ := bind_eq_ok.1 hb
        have hpair : (key, value) ∈ (sequence whole items).itemPairs := mem_itemPairs hitem
        obtain ⟨hlt, hlt'⟩ := depth_lt_of_mem_itemPairs hpair
        dsimp only at hlt hlt'
        obtain ⟨hc, hgoes, hkey⟩ := h.meet deep owed _ _ key (by omega) (hn.reads.tail (.pair htag hpair (.inl rfl))) ha
          hkey
        obtain ⟨hb, hgoes', hvalue⟩ := h.meet deep owed _ _ value (by omega)
          (hn.reads.tail (.pair htag hpair (.inr rfl))) hc hvalue
        refine ⟨hb, (hgoes.mono (by omega)).trans (hgoes'.mono (by omega)), head, _, rfl, fun m hm => ?_⟩
        obtain rfl | rfl := hm
        · exact settled_mono hgoes' hkey
        · exact hvalue
      next => cases hb
      next => cases hb
    obtain ⟨hq, hgoes, hitems⟩ := hfold
    refine ⟨hq, hgoes, ⟨rfl, fun item hitem => ?_⟩, fun o ho m hm => ?_⟩
    · obtain ⟨head, o, heq, -⟩ := hitems item hitem
      exact ⟨head, o, heq⟩
    · obtain ⟨item, hitem, hsingle⟩ := List.mem_filterMap.1 ho
      obtain ⟨head, o', rfl, hsettled⟩ := hitems item hitem
      cases hsingle
      exact hsettled m hm
  next => cases hq

/-- A list of pairs that has been filled is settled. -/
theorem SettlesWith.reveal_pairs (h : SettlesWith root fuel) {context : Context} (hfuel : 2 * n.depth ≤ fuel + 1)
    (hn : root.IsCollection n) (htag : n.head.tag = .omap ∨ n.head.tag = .pairs) (hp : Accounts root p (n :: owed))
    (hq : Progress.fillPairs fuel deep context p n = .ok q) : Settles root owed n.depth p (q.reveal n) n := by
  obtain ⟨hq, hgoes, hlists, hpairs⟩ := h.fillPairs deep context _ p q n hfuel hn htag hp hq
  refine settles_of_parts hn (passes_of_parts hn ?_ (fun _ => hlists) ?_) hq hgoes fun m hm => ?_
  · obtain htag | htag := htag <;> simp [htag]
  · obtain htag | htag := htag <;> simp [htag]
  · cases hm with
    | pair _ ho hm => exact hpairs _ ho m hm
    | item htag' _ | key htag' _ _ _ | value htag' _ _ => obtain htag | htag := htag <;> simp [htag] at htag'

/-- A list whose items have been read is settled. -/
theorem SettlesWith.reveal_items (h : SettlesWith root fuel) (hfuel : 2 * n.depth ≤ fuel + 1)
    (hn : root.IsCollection n) (htag : n.head.tag = .seq) (hkind : n.kind = .sequence)
    (hp : Accounts root p (n :: owed)) (hq : n.items.foldlM (Progress.meet fuel deep) p = .ok q) : Settles root owed n.depth p (q.reveal n) n := by
  have hfold : Accounts root q (n :: owed) ∧ Goes n.depth p q ∧
      ∀ m ∈ n.items, Settled (Due root q (n :: owed)) m := by
    refine goes_foldlM (g := id) (P := fun q m => Settled (Due root q (n :: owed)) m)
      (fun p q m => settled_mono) (fun m hm a b ha hb => ?_) hp hq
    have hlt := depth_lt_of_item hm
    obtain ⟨hb, hgoes, hsettled⟩ := h.meet deep _ a b m (by omega) (hn.reads.tail (.item htag hm)) ha hb
    exact ⟨hb, hgoes.mono hlt, hsettled⟩
  obtain ⟨hq, hgoes, hitems⟩ := hfold
  refine settles_of_parts hn (passes_of_parts hn (fun _ => hkind) ?_ ?_) hq hgoes fun m hm => ?_
  · simp [htag]
  · simp [htag]
  · cases hm with
    | item _ hm => exact hitems m hm
    | pair htag' _ _ | key htag' _ _ _ | value htag' _ _ => simp [htag] at htag'

/-- Of an entry its value is read, whatever its key is. -/
theorem SettlesWith.entry_value (h : SettlesWith root fuel) (hfuel : 2 * n.depth ≤ fuel + 1)
    (hn : root.IsCollection n) (htag : n.head.tag = .map ∨ n.head.tag = .set) {pairs : List (Node × Node)}
    (hflat : n.flatEntries = .ok pairs) {o : Node × Node} (ho : o ∈ pairs) (hp : Accounts root p (n :: owed))
    {number : Nat} {b : Progress × Nat}
    (hb : (Progress.meet fuel deep p o.2 >>= fun q => pure (q, number + 1)) = .ok b) :
    Accounts root b.1 (n :: owed) ∧ Goes n.depth p b.1 ∧ Settled (Due root b.1 (n :: owed)) o.2 := by
  have hlt := (depth_lt_of_flatEntries hflat o ho).2
  obtain ⟨q, hq, hb⟩ := bind_eq_ok.1 hb
  cases hb
  obtain ⟨hq, hgoes, hvalue⟩ := h.meet deep _ p q o.2 (by omega) (hn.reads.tail (.value htag hflat ho)) hp hq
  exact ⟨hq, hgoes.mono hlt, hvalue⟩

/-- A key that is no scalar is read before its value; as it is simple, it shows its integers as soon as it is read. -/
theorem SettlesWith.entry_key (hsimple : root.HasSimpleKeys) (h : SettlesWith root fuel)
    (hfuel : 2 * n.depth ≤ fuel + 1) (hn : root.IsCollection n) (htag : n.head.tag = .map ∨ n.head.tag = .set)
    {pairs : List (Node × Node)} (hflat : n.flatEntries = .ok pairs) {o : Node × Node} (ho : o ∈ pairs)
    (hname : o.1.name? = none) (hp : Accounts root p (n :: owed)) (hq : Progress.meet fuel true p o.1 = .ok q)
    (hshort : ¬ (valueFrom q.keys q.hidden o.1.depth false o.1).hasLongInteger = true) {keys : KeyTexts} {number : Nat}
    {b : Progress × Nat}
    (hb : (Progress.meet fuel deep { q with keys := keys } o.2 >>= fun q => pure (q, number + 1)) = .ok b) :
    Accounts root b.1 (n :: owed) ∧ Goes n.depth p b.1 ∧ Settled (Due root b.1 (n :: owed)) o.2 ∧
      Settled (Due root b.1 (n :: owed)) o.1 ∧ ¬ o.1.ShowsLong := by
  have hlt := (depth_lt_of_flatEntries hflat o ho).1
  obtain ⟨hq, hgoes, hread⟩ := h.meet true _ p q o.1 (by omega) (hn.reads.tail (.key htag hflat ho hname)) hp hq
  obtain ⟨hb, hgoes', hvalue⟩ := h.entry_value hfuel hn htag hflat ho (by exact hq.congr rfl rfl) hb
  have hkept : Goes n.depth q b.1 := Goes.trans (by exact goes_of_eq n.depth rfl rfl) hgoes'
  refine ⟨hb, (hgoes.mono hlt).trans hkept, hvalue, settled_mono hkept hread, fun hlong => ?_⟩
  exact hshort (hasLongInteger_of_showsLong hlong (hsimple n hn.reads htag pairs hflat o ho hname) le_rfl)

/-- A mapping whose entries have been read is settled. -/
theorem reveal_entries (hn : root.IsCollection n) (htag : n.head.tag = .map ∨ n.head.tag = .set)
    {pairs : List (Node × Node)} (hflat : n.flatEntries = .ok pairs) (hq : Accounts root q (n :: owed))
    (hgoes : Goes n.depth p q) (hentries : ∀ o ∈ pairs, Settled (Due root q (n :: owed)) o.2 ∧
      (o.1.name? = none → Settled (Due root q (n :: owed)) o.1 ∧ ¬ o.1.ShowsLong)) :
    Settles root owed n.depth p (q.reveal n) n := by
  refine settles_of_parts hn (passes_of_parts hn ?_ ?_ fun _ => ⟨pairs, hflat, fun o ho hname =>
    ((hentries o ho).2 hname).2⟩) hq hgoes fun m hm => ?_
  · obtain htag | htag := htag <;> simp [htag]
  · obtain htag | htag := htag <;> simp [htag]
  · cases hm with
    | item htag' _ | pair htag' _ _ => obtain htag | htag := htag <;> simp [htag] at htag'
    | key _ hpairs ho hname =>
      obtain rfl := Except.ok.inj (hflat.symm.trans hpairs)
      exact ((hentries _ ho).2 hname).1
    | value _ hpairs ho =>
      obtain rfl := Except.ok.inj (hflat.symm.trans hpairs)
      exact (hentries _ ho).1

theorem SettlesWith.fill_succ (hsimple : root.HasSimpleKeys) (h : SettlesWith root fuel)
    (hfuel : 2 * n.depth ≤ fuel + 1) (hn : root.IsCollection n) (hp : Accounts root p (n :: owed))
    (hq : Progress.fill (fuel + 1) deep p n = .ok q) : Settles root owed n.depth p q n := by
  rw [Progress.fill.eq_def] at hq
  dsimp only at hq
  split at hq
  next htag =>
    split at hq
    next head items =>
      obtain ⟨r, hr, hq⟩ := bind_eq_ok.1 hq
      cases hq
      exact h.reveal_items hfuel hn htag rfl hp hr
    next => cases hq
  next htag =>
    obtain ⟨r, hr, hq⟩ := bind_eq_ok.1 hq
    cases hq
    exact h.reveal_pairs hfuel hn (.inl htag) hp hr
  next htag =>
    obtain ⟨r, hr, hq⟩ := bind_eq_ok.1 hq
    cases hq
    exact h.reveal_pairs hfuel hn (.inr htag) hp hr
  next hseq homap hpairs =>
    obtain ⟨pairs, hflat, hq⟩ := bind_eq_ok.1 hq
    obtain ⟨⟨r, count⟩, hr, hq⟩ := bind_eq_ok.1 hq
    cases hq
    have htag : n.head.tag = .map ∨ n.head.tag = .set :=
      ((hasParts_iff.1 hn.parts).resolve_left hseq).resolve_left (not_or.2 ⟨homap, hpairs⟩)
    -- of each entry its value has been read, and its key if it is no scalar
    have hfold : Accounts root r (n :: owed) ∧ Goes n.depth p r ∧ ∀ o ∈ pairs, Settled (Due root r (n :: owed)) o.2 ∧
        (o.1.name? = none → Settled (Due root r (n :: owed)) o.1 ∧ ¬ o.1.ShowsLong) := by
      refine goes_foldlM (g := Prod.fst) (P := fun q o => Settled (Due root q (n :: owed)) o.2 ∧
        (o.1.name? = none → Settled (Due root q (n :: owed)) o.1 ∧ ¬ o.1.ShowsLong))
        (fun p q o hgoes ho => ?_) (fun o ho a b ha hb => ?_) hp hr
      · exact ⟨settled_mono hgoes ho.1, fun hname => ⟨settled_mono hgoes (ho.2 hname).1, (ho.2 hname).2⟩⟩
      split at hb
      next head text hkey =>
        obtain ⟨hb, hgoes, hvalue⟩ := h.entry_value hfuel hn htag hflat ho ha hb
        refine ⟨hb, hgoes, hvalue, fun hname => ?_⟩
        rw [hkey] at hname
        cases hname
      next hkey =>
        obtain ⟨c, hc, hb⟩ := bind_eq_ok.1 hb
        split at hb
        next => cases hb
        next hshort =>
          obtain ⟨c', hc', hb⟩ := bind_eq_ok.1 hb
          cases hc'
          obtain ⟨hb, hgoes, hvalue, hread⟩ :=
            h.entry_key hsimple hfuel hn htag hflat ho (name?_eq_none hkey) ha hc hshort hb
          exact ⟨hb, hgoes, hvalue, fun _ => hread⟩
    obtain ⟨hr, hgoes, hentries⟩ := hfold
    exact reveal_entries hn htag hflat hr hgoes hentries

theorem settlesWith (hagree : root.AnchorsAgree) (hsimple : root.HasSimpleKeys) (fuel : Nat) :
    SettlesWith root fuel := by
  induction fuel with
  | zero =>
    refine ⟨fun deep owed p q n hfuel => ?_, fun deep owed p q n hfuel => ?_,
      fun deep context owed p q n hfuel => ?_⟩
    all_goals
      have := depth_pos n
      omega
  | succ fuel ih => exact ⟨fun deep owed p q n hfuel => ih.meet_succ hagree (by omega),
      fun deep owed p q n hfuel => ih.fill_succ hsimple (by omega),
      fun deep context owed p q n hfuel => ih.fillPairs_succ (by omega)⟩

/-- One level: the collections that wait are read, and those that wait behind them are less deep. -/
theorem settles_level {depth : Nat} (hagree : root.AnchorsAgree) (hsimple : root.HasSimpleKeys)
    (hfuel : 2 * depth ≤ fuel) {ns : List Node} (hns : ∀ n ∈ ns, root.IsCollection n ∧ n.depth ≤ depth)
    (hp : Accounts root p ns) (hq : ns.foldlM (Progress.fill fuel false) p = .ok q) :
    Accounts root q [] ∧ Goes depth p q ∧ ∀ n, Settled (Due root p ns) n → Settled (Due root q []) n := by
  induction ns generalizing p with
  | nil =>
    cases hq
    exact ⟨hp, .refl depth q, fun n hn => hn⟩
  | cons n ns ih =>
    obtain ⟨⟨hn, hdepth⟩, hns⟩ := List.forall_mem_cons.1 hns
    rw [List.foldlM_cons] at hq
    obtain ⟨r, hr, hq⟩ := bind_eq_ok.1 hq
    obtain ⟨hr, hgoes, hsettled⟩ := (settlesWith hagree hsimple fuel).fill false ns p r n (by omega) hn hp hr
    obtain ⟨hq, hgoes', hkept⟩ := ih hns hr hq
    refine ⟨hq, (hgoes.mono hdepth).trans hgoes', fun m hm => hkept m (hm.trans fun k hk => ?_)⟩
    cases hk with
    | waits hk => exact .due (.waits (hgoes.waiting k hk))
    | owed hk =>
      obtain rfl | hk := List.mem_cons.1 hk
      · exact hsettled
      · exact .due (.owed hk)
    | known hk hknown => exact .due (.known hk (hgoes.knows hknown))

/-- As many levels as the collections that wait are deep leave none that waits. -/
theorem settles_levels {depth : Nat} (hagree : root.AnchorsAgree) (hsimple : root.HasSimpleKeys)
    (hfuel : 2 * depth ≤ fuel) (hp : Accounts root p []) (hwaiting : ∀ n ∈ p.waiting, n.depth ≤ depth)
    (hq : p.levels fuel depth = .ok q) :
    Accounts root q [] ∧ q.waiting = [] ∧ ∀ n, Settled (Due root p []) n → Settled (Due root q []) n := by
  induction depth generalizing p with
  | zero =>
    cases hq
    refine ⟨hp, List.eq_nil_iff_forall_not_mem.2 fun n hn => ?_, fun n hn => hn⟩
    have := hwaiting n hn
    have := depth_pos n
    omega
  | succ depth ih =>
    rw [levels] at hq
    split at hq
    next hnone =>
      cases hq
      exact ⟨hp, List.reverse_eq_nil_iff.1 hnone, fun n hn => hn⟩
    next ns hne =>
      obtain ⟨r, hr, hq⟩ := bind_eq_ok.1 hq
      have hmem : ∀ n ∈ p.waiting.reverse, n ∈ p.waiting := fun n => List.mem_reverse.1
      obtain ⟨hstart, hdue⟩ := hp.grow (q := { p with waiting := [] }) (o := p.waiting.reverse) (List.forall_mem_nil _)
        (fun k hk => hk) (fun k hk => .inr (List.mem_reverse.2 (hk.resolve_right List.not_mem_nil)))
        fun k hk hknown => .inl hknown
      obtain ⟨hr, hgoes, hkept⟩ := settles_level hagree hsimple hfuel
        (fun n hn => ⟨hp.waiting n (hmem n hn), hwaiting n (hmem n hn)⟩) hstart hr
      have hless : ∀ n ∈ r.waiting, n.depth ≤ depth := fun n hn =>
        Nat.le_of_lt_succ ((hgoes.less n hn).resolve_left List.not_mem_nil)
      obtain ⟨hq, hnone, hkept'⟩ := ih (by omega) hr hless hq
      exact ⟨hq, hnone, fun n hn => hkept' n (hkept n (hn.mono hdue))⟩

/-- When nothing is due, what has been read has been read as a whole. -/
theorem passes_of_reads (hp : Accounts root p []) (hwaiting : p.waiting = [])
    (hroot : Settled (Due root p []) root) (hn : root.Reads n) : n.Passes ∧ Settled (Due root p []) n := by
  have hstep : ∀ {n}, Settled (Due root p []) n → n.Passes ∧ ∀ m, n.Opens m → Settled (Due root p []) m := by
    intro n hn
    cases hn with
    | read hpasses hparts => exact ⟨hpasses, hparts⟩
    | due hdue =>
      cases hdue with
      | waits hn =>
        rw [hwaiting] at hn
        cases hn
      | owed hn => cases hn
      | known hn hknown =>
        obtain hn | hn | hread := hp.known n hn hknown
        · rw [hwaiting] at hn
          cases hn
        · cases hn
        · exact hread
  induction hn with
  | refl => exact ⟨(hstep hroot).1, hroot⟩
  | tail _ hopens ih =>
    have hm := (hstep ih.2).2 _ hopens
    exact ⟨(hstep hm).1, hm⟩

end Progress

/-- In a document that has a value, every node that is read for it passes. -/
theorem passes_of_toValue {root n : Node} {v : Value} (hagree : root.AnchorsAgree) (hsimple : root.HasSimpleKeys)
    (h : root.toValue = .ok v) (hn : root.Reads n) : n.Passes := by
  obtain ⟨p, hp, h⟩ := bind_eq_ok.1 h
  obtain ⟨q, hq, -⟩ := bind_eq_ok.1 h
  have hempty : Progress.Accounts root .empty [] :=
    ⟨nofun, fun n _ hknown => by simp [Progress.knows, Progress.empty] at hknown⟩
  obtain ⟨hp, hgoes, hroot⟩ := (Progress.settlesWith hagree hsimple _).meet false [] .empty p root (by omega) .refl
    hempty hp
  obtain ⟨hq, hwaiting, hkept⟩ := Progress.settles_levels hagree hsimple (by omega) hp (fun n hn => by
    have := (hgoes.less n hn).resolve_left List.not_mem_nil
    omega) hq
  exact (Progress.passes_of_reads hq hwaiting (hkept root hroot) hn).1

end NoteVault.Yaml.Node
