import NoteVault.Proofs.Yaml.Scan.Places

/-!
The tokens of any text. The scanner only goes on, and fails for a fault or at an escape that stands for no character; no
two properties begin at one place.
-/
namespace NoteVault.Yaml

open Cursor (goesOn_ok goesOn_fault goesOn_faultAt goesOn_ite)

/-- Somewhere in a text there is an escape that stands for no character. -/
def HasFarEscape (text : String) (far : Bool) : Prop :=
  ∃ before rest, text.toList = before ++ rest ∧ BeginsFarEscape rest far

namespace Scan

variable {s t : Scan} {x : Char}

theorem ahead_toToken (s : Scan) : s.cursor.Ahead s.toToken.cursor := by
  have hloop : ∀ (fuel : Nat) (s : Scan), s.cursor.Ahead (toToken.loop fuel s).cursor := by
    intro fuel
    induction fuel with
    | zero => exact fun s => .refl _
    | succ fuel ih =>
      intro s
      have hblanks := s.cursor.ahead_comment
      unfold toToken.loop
      extract_lets c d
      split
      · exact (hblanks.trans (Cursor.ahead_lineBreak d)).trans (ih _)
      · exact hblanks
  unfold toToken
  refine .trans ?_ (hloop _ _)
  split
  · exact Cursor.ahead_next _
  · exact .refl _

theorem goesOn_dropKey (s : Scan) : s.cursor.GoesOn Scan.cursor s.dropKey := by
  unfold dropKey
  split
  · exact goesOn_ite (fun _ => goesOn_faultAt) fun _ => goesOn_ok (.refl _)
  · exact goesOn_ok (.refl _)

theorem goesOn_closed (column : Int) (s : Scan) : s.cursor.GoesOn Scan.cursor (s.closeTo column).dropKey :=
  (propertyPlaces_closeTo column s).2 ▸ goesOn_dropKey (s.closeTo column)

theorem goesOn_saveKey (s : Scan) : s.cursor.GoesOn Scan.cursor s.saveKey := by
  unfold saveKey
  exact goesOn_ite (fun _ => (goesOn_dropKey s).bind fun _ => goesOn_ok (.refl _)) fun _ => goesOn_ok (.refl _)

theorem goesOn_dropStale (s : Scan) : s.cursor.GoesOn Scan.cursor s.dropStale := by
  unfold dropStale
  dsimp only
  split
  · exact goesOn_faultAt
  · exact goesOn_ok (.refl _)

theorem goesOn_settle (s : Scan) : s.cursor.GoesOn Scan.cursor s.settle :=
  ((goesOn_dropStale s.toToken).of_ahead (ahead_toToken s)).bind fun t =>
    goesOn_ok ((propertyPlaces_closeTo _ t).2.symm ▸ .refl _)

theorem goesOn_streamEnd (s : Scan) : s.cursor.GoesOn Scan.cursor s.streamEnd :=
  (goesOn_closed (-1) s).bind fun _ => goesOn_ok (.refl _)

/-- A sign goes on by its length. -/
theorem ahead_pushSign (kind : TokenKind) (length : Nat) (s : Scan) : s.cursor.Ahead (s.pushSign kind length).cursor :=
  Cursor.ahead_skip _ length

theorem cursor_openHere (kind : TokenKind) (s : Scan) : (s.openHere kind).cursor = s.cursor := by
  unfold openHere open?
  split
  next h =>
    split at h <;> cases h
    rfl
  next => rfl

theorem cursor_opened (kind : TokenKind) (s : Scan) :
    (if s.inFlow then s else s.openHere kind).cursor = s.cursor := by
  split
  · rfl
  · exact cursor_openHere kind s

theorem goesOn_value (s : Scan) : s.cursor.GoesOn Scan.cursor s.value := by
  unfold value
  split
  next k _ =>
    refine goesOn_ok (Cursor.Ahead.trans ?_ (ahead_pushSign .value 1 _))
    dsimp only
    split
    · exact .refl _
    · split
      next hopen =>
        unfold open? at hopen
        split at hopen <;> cases hopen
        exact .refl _
      next => exact .refl _
  · refine goesOn_ite (fun _ => goesOn_fault) fun _ => goesOn_ok (Cursor.Ahead.trans ?_ (ahead_pushSign .value 1 _))
    exact (cursor_opened .blockMappingStart s).symm ▸ .refl _

theorem goesOn_withText {α : Type} {read : Cursor → Except Error (α × Cursor)} {f : α → TokenKind} (s : Scan)
    (h : ∀ c : Cursor, c.GoesOn Prod.snd (read c)) :
    s.cursor.GoesOn Scan.cursor (s.withText fun c => (read c).map fun (a, c) => (f a, c)) := by
  refine (goesOn_saveKey s).bind fun t => ?_
  have hread : t.cursor.GoesOn Prod.snd ((read t.cursor).map fun (a, c) => (f a, c)) :=
    Cursor.GoesOn.map (f := fun r : α × Cursor => (f r.1, r.2)) (h t.cursor)
  exact hread.bind fun _ => goesOn_ok (.refl _)

theorem goesOn_name (s : Scan) (context : Context) (f : String → TokenKind) : s.cursor.GoesOn Scan.cursor
    (s.withText fun c => (c.anchorName context).map fun (name, c) => (f name, c)) :=
  goesOn_withText s fun c => (c.goesOn_anchorName context).of_ahead c.ahead_next

theorem goesOn_token (s : Scan) (x : Char) : s.cursor.GoesOn Scan.cursor (s.token x) := by
  have hmark : ∀ kind, s.cursor.GoesOn Scan.cursor (s.documentMark kind) := fun kind =>
    (goesOn_closed (-1) s).bind fun _ => goesOn_ok (Cursor.ahead_skip _ 3)
  have hstart : ∀ kind, s.cursor.GoesOn Scan.cursor (s.flowStart kind) := fun kind =>
    (goesOn_saveKey s).bind fun _ => goesOn_ok (Cursor.ahead_skip _ 1)
  have hend : ∀ kind, s.cursor.GoesOn Scan.cursor (s.flowEnd kind) := fun kind =>
    (goesOn_dropKey s).bind fun _ => goesOn_ok (Cursor.ahead_skip _ 1)
  have hopened : ∀ kind, s.cursor.GoesOn Scan.cursor (if s.inFlow then s else s.openHere kind).dropKey := fun kind =>
    cursor_opened kind s ▸ goesOn_dropKey _
  have hblock : ∀ folded, s.cursor.GoesOn Scan.cursor (s.block folded) := fun folded =>
    (goesOn_dropKey s).bind fun t => (t.cursor.goesOn_block folded t.indent).bind fun _ => goesOn_ok (.refl _)
  have hquoted : ∀ double, s.cursor.GoesOn Scan.cursor (s.quoted double) := fun double =>
    goesOn_withText (f := fun text => .scalar (String.ofList text) (if double then .double else .single)) s
      fun c => c.goesOn_quoted double
  unfold token
  refine goesOn_ite (fun _ => ?_) fun _ => goesOn_ite (fun _ => hmark _) fun _ => goesOn_ite (fun _ => hmark _) fun _ =>
    goesOn_ite (fun _ => hstart _) fun _ => goesOn_ite (fun _ => hstart _) fun _ =>
    goesOn_ite (fun _ => hend _) fun _ => goesOn_ite (fun _ => hend _) fun _ => goesOn_ite (fun _ => ?_) fun _ =>
    goesOn_ite (fun _ => ?_) fun _ => goesOn_ite (fun _ => ?_) fun _ => goesOn_ite (fun _ => goesOn_value s) fun _ =>
    goesOn_ite (fun _ => goesOn_name s _ _) fun _ => goesOn_ite (fun _ => goesOn_name s _ _) fun _ =>
    goesOn_ite (fun _ => ?_) fun _ => goesOn_ite (fun _ => hblock _) fun _ => goesOn_ite (fun _ => hblock _) fun _ =>
    goesOn_ite (fun _ => hquoted _) fun _ => goesOn_ite (fun _ => hquoted _) fun _ =>
    goesOn_ite (fun _ => ?_) fun _ => goesOn_fault
  · exact (goesOn_closed (-1) s).bind fun t => t.cursor.goesOn_directive.bind fun _ => goesOn_ok (.refl _)
  · exact (goesOn_dropKey s).bind fun _ => goesOn_ok (Cursor.ahead_skip _ 1)
  · exact goesOn_ite (fun _ => goesOn_fault) fun _ => (hopened _).bind fun _ => goesOn_ok (Cursor.ahead_skip _ 1)
  · exact goesOn_ite (fun _ => goesOn_fault) fun _ => (hopened _).bind fun _ => goesOn_ok (Cursor.ahead_skip _ 1)
  · exact goesOn_withText s fun c => c.goesOn_tag.of_ahead c.ahead_next
  · exact (goesOn_saveKey s).bind fun t => goesOn_ok (Cursor.ahead_plain _ _ t.cursor)

theorem goesOn_step (s : Scan) : s.cursor.GoesOn (·.1.cursor) s.step := by
  rw [step_eq]
  refine (goesOn_settle s).bind fun u => ?_
  split
  · exact (goesOn_streamEnd u).bind fun _ => goesOn_ok (.refl _)
  next x _ => exact (goesOn_token u x).bind fun t => (goesOn_dropStale t).bind fun _ => goesOn_ok (.refl _)

theorem InPlaces.step {more : Bool} (h : InPlaces s) (ht : s.step = .ok (t, more)) : InPlaces t := by
  rw [step_eq] at ht
  obtain ⟨u, hu, ht⟩ := bind_eq_ok.1 ht
  have h : InPlaces u := h.kept (propertyPlaces_settle hu) ((goesOn_settle s).ahead u hu)
  split at ht
  · obtain ⟨v, hv, ht⟩ := bind_eq_ok.1 ht
    obtain ⟨hplaces, hcursor⟩ := propertyPlaces_streamEnd hv
    cases ht
    exact h.kept hplaces (hcursor ▸ .refl _)
  next x hx =>
    obtain ⟨v, hv, ht⟩ := bind_eq_ok.1 ht
    obtain ⟨w, hw, ht⟩ := bind_eq_ok.1 ht
    obtain ⟨htokens, hcursor⟩ := tokens_dropStale hw
    cases ht
    exact (h.token hx hv ((goesOn_token u x).ahead v hv)).kept (congrArg propertyPlaces htokens) (hcursor ▸ .refl _)

theorem inPlaces_start (text : String) : InPlaces (start text) :=
  ⟨.nil, fun _ h => absurd h List.not_mem_nil⟩

/-- A run, to its end or to its failure. -/
theorem run_spec (fuel : Nat) (h : InPlaces s) : (propertyPlaces (s.run fuel).tokens).Nodup ∧
    ∀ e, (s.run fuel).failure = some e → s.cursor.FailsWith e := by
  have hnodup : ∀ {t : Scan} {tokens : List Token}, InPlaces t → tokens.Sublist t.tokens.reverse →
      (propertyPlaces tokens).Nodup := by
    intro t tokens ht hsub
    refine List.Nodup.sublist ((hsub.filter _).map _) ?_
    rw [List.filter_reverse, List.map_reverse, List.nodup_reverse]
    exact ht.sorted.imp fun h => Nat.ne_of_gt h
  induction fuel generalizing s with
  | zero => exact ⟨hnodup h (.refl _), fun e he => by cases he⟩
  | succ fuel ih =>
    rw [run]
    split
    next e he =>
      refine ⟨hnodup h (List.take_sublist _ _), fun e' he' => ?_⟩
      cases he'
      exact (goesOn_step s).fails e he
    next t ht =>
      obtain ⟨hplaces, hfails⟩ := ih (h.step ht)
      exact ⟨hplaces, fun e he => (hfails e he).of_ahead ((goesOn_step s).ahead _ ht)⟩
    next t ht => exact ⟨hnodup (h.step ht) (.refl _), fun e he => by cases he⟩

end Scan

/-- No two properties of a text begin at one place. -/
theorem nodup_propertyPlaces (text : String) : (propertyPlaces (TokenList.ofString text).tokens).Nodup := by
  unfold TokenList.ofString
  split
  · exact .nil
  · exact (Scan.run_spec _ (Scan.inPlaces_start text)).1

end NoteVault.Yaml
