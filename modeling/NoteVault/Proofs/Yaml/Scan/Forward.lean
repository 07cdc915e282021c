import NoteVault.Proofs.Failure
import Mathlib.Data.List.TakeWhile
import NoteVault.Proofs.Yaml.Scalar.Double

/-!
Reading of any text goes on only: each reader of a part of it leaves the cursor where it was or further on. It fails for
a fault of the text, or at an escape that stands for no character.
-/
namespace NoteVault.Yaml

/-- The characters begin with an escape of eight digits whose number is above those of all characters. -/
def BeginsFarEscape (s : List Char) (far : Bool) : Prop := ∃ ds rest, s = '\\' :: 'U' :: (ds ++ rest) ∧ ds.length = 8 ∧
  (∀ d ∈ ds, isHexDigit d = true) ∧ 0x110000 ≤ hexValue ds ∧ far = decide (0x80000000 ≤ hexValue ds)

namespace Cursor

/-- A cursor stands where another one is, or further on. -/
def Ahead (c d : Cursor) : Prop := ∃ n, d = c.skip n

section Ahead

variable {c d e : Cursor}

@[refl] theorem Ahead.refl (c : Cursor) : c.Ahead c := ⟨0, rfl⟩

theorem Ahead.trans (h : c.Ahead d) (h' : d.Ahead e) : c.Ahead e := by
  obtain ⟨m, rfl⟩ := h
  obtain ⟨n, rfl⟩ := h'
  exact ⟨m + n, (skip_add c m n).symm⟩

theorem ahead_skip (c : Cursor) (n : Nat) : c.Ahead (c.skip n) := ⟨n, rfl⟩

theorem ahead_next (c : Cursor) : c.Ahead c.next := ahead_skip c 1

theorem ahead_span (p : Char → Bool) (c : Cursor) : c.Ahead (c.span p).2 := ahead_skip c _

theorem ahead_skipAll (x : Char) (c : Cursor) : c.Ahead (c.skipAll x) := ahead_span _ c

theorem ahead_toLineEnd (c : Cursor) : c.Ahead c.toLineEnd := ahead_span _ c

theorem ahead_lineBreak (c : Cursor) : c.Ahead c.lineBreak.2 := by
  unfold lineBreak
  split
  · exact ahead_skip c 2
  · split
    · exact ahead_next c
    · split
      · exact ahead_next c
      · rfl
  · rfl

end Ahead

/-- Behind a cursor a reader fails: for a fault, or at an escape that is there. -/
def FailsWith (c : Cursor) (e : Error) : Prop :=
  (∃ f, e = .fault f) ∨ ∃ d far, c.Ahead d ∧ BeginsFarEscape d.rest far ∧ e = .value (.codePoint far)

theorem FailsWith.of_ahead {c d : Cursor} {e : Error} (hd : c.Ahead d) (h : d.FailsWith e) : c.FailsWith e :=
  h.imp_right fun ⟨k, far, hk, hfar⟩ => ⟨k, far, hd.trans hk, hfar⟩

/-- A reader goes on from a cursor. -/
structure GoesOn {α : Type} (c : Cursor) (g : α → Cursor) (x : Except Error α) : Prop where
  ahead : ∀ a, x = .ok a → c.Ahead (g a)
  fails : ∀ e, x = .error e → c.FailsWith e

section GoesOn

variable {α β : Type} {c d : Cursor} {g : α → Cursor} {g' : β → Cursor}

theorem goesOn_ok {a : α} (h : c.Ahead (g a)) : c.GoesOn g (.ok a) := by
  refine ⟨fun b hb => ?_, fun e he => ?_⟩
  · cases hb
    exact h
  · cases he

theorem goesOn_error {e : Error} (h : c.FailsWith e) : c.GoesOn g (.error e) := by
  refine ⟨fun a ha => ?_, fun e' he => ?_⟩
  · cases ha
  · cases he
    exact h

theorem goesOn_fault {f : Fault} : c.GoesOn g (.error (.fault f)) := goesOn_error (.inl ⟨f, rfl⟩)

theorem goesOn_faultAt {context : Context} {start : Mark} {problem : Problem} :
    c.GoesOn g (faultAt context start problem d) := goesOn_fault

theorem GoesOn.of_ahead {x : Except Error α} (hd : c.Ahead d) (h : d.GoesOn g x) : c.GoesOn g x :=
  ⟨fun a ha => hd.trans (h.ahead a ha), fun e he => (h.fails e he).of_ahead hd⟩

theorem GoesOn.bind {x : Except Error α} {f : α → Except Error β} (h : c.GoesOn g x)
    (hf : ∀ a, (g a).GoesOn g' (f a)) : c.GoesOn g' (x >>= f) := by
  cases x with
  | ok a => exact (hf a).of_ahead (h.ahead a rfl)
  | error e => exact goesOn_error (h.fails e rfl)

theorem GoesOn.map {x : Except Error α} {f : α → β} {g : β → Cursor} (h : c.GoesOn (fun a => g (f a)) x) :
    c.GoesOn g (x.map f) := by
  cases x with
  | ok a => exact goesOn_ok (h.ahead a rfl)
  | error e => exact goesOn_error (h.fails e rfl)

theorem goesOn_ite {P : Prop} [Decidable P] {x y : Except Error α} (hx : P → c.GoesOn g x)
    (hy : ¬P → c.GoesOn g y) : c.GoesOn g (if P then x else y) := by
  split
  next h => exact hx h
  next h => exact hy h

end GoesOn

section Properties

variable {context part : Context} {start : Mark}

/-- The name of an anchor stands behind its sign. -/
theorem goesOn_anchorName (context : Context) (c : Cursor) : c.next.GoesOn Prod.snd (c.anchorName context) := by
  unfold anchorName
  exact goesOn_ite (fun _ => goesOn_faultAt) fun _ => goesOn_ite (fun _ => goesOn_ok (ahead_span _ _)) fun _ =>
    goesOn_faultAt

theorem goesOn_uriOctets (context : Context) (start : Mark) (fuel : Nat) (c : Cursor) :
    c.GoesOn Prod.snd (uriOctets context start fuel c) := by
  induction fuel generalizing c with
  | zero => exact goesOn_ok (.refl c)
  | succ fuel ih =>
    rw [uriOctets]
    refine goesOn_ite (fun _ => ?_) fun _ => goesOn_ok (.refl c)
    split
    · refine goesOn_ite (fun _ => goesOn_faultAt) fun _ => goesOn_ite (fun _ => goesOn_faultAt) fun _ => ?_
      exact ((ih _).of_ahead ((ahead_next c).trans (ahead_skip _ 2))).bind fun a => goesOn_ok (.refl _)
    · exact goesOn_faultAt
    · exact goesOn_faultAt

theorem goesOn_uriFrom (context : Context) (start : Mark) (fuel : Nat) (c : Cursor) :
    c.GoesOn Prod.snd (uriFrom context start fuel c) := by
  induction fuel generalizing c with
  | zero => exact goesOn_ok (.refl c)
  | succ fuel ih =>
    rw [uriFrom]
    refine goesOn_ite (fun _ => ?_) fun _ => goesOn_ok (ahead_span _ c)
    refine ((goesOn_uriOctets context start _ _).of_ahead (ahead_span _ c)).bind fun a => ?_
    dsimp only
    split
    · exact goesOn_fault
    · exact (ih _).bind fun b => goesOn_ok (.refl _)

theorem goesOn_uri (context part : Context) (start : Mark) (c : Cursor) :
    c.GoesOn Prod.snd (c.uri context part start) := by
  refine (goesOn_uriFrom context start _ c).bind fun a => ?_
  exact goesOn_ite (fun _ => goesOn_faultAt) fun _ => goesOn_ok (.refl _)

/-- A handle begins with its sign. -/
theorem goesOn_handle (context : Context) (start : Mark) (c : Cursor) :
    c.next.GoesOn Prod.snd (c.handle context start) := by
  unfold handle
  refine goesOn_ite (fun _ => goesOn_faultAt) fun _ => goesOn_ite (fun _ => goesOn_ok (.refl _)) fun _ => ?_
  exact goesOn_ite (fun _ => goesOn_ok ((ahead_span _ _).trans (ahead_next _))) fun _ => goesOn_faultAt

/-- What a tag is made of stands behind its sign. -/
theorem goesOn_tag (c : Cursor) : c.next.GoesOn Prod.snd c.tag := by
  have hend : ∀ x : TagText × Cursor, x.2.GoesOn Prod.snd (if endsField x.2.peek then .ok (x.1, x.2)
      else faultAt .tag c.mark (.noBlank x.2.peek) x.2) :=
    fun x => goesOn_ite (fun _ => goesOn_ok (.refl _)) fun _ => goesOn_faultAt
  have hgiven : ∀ {d : Cursor} {t : TagText}, c.next.Ahead d → c.next.GoesOn Prod.snd (Except.ok (t, d)) :=
    fun h => goesOn_ok h
  unfold tag
  dsimp only
  refine goesOn_ite (fun _ => ?_) fun _ => goesOn_ite (fun _ => (hgiven (.refl _)).bind hend) fun _ => ?_
  · refine ((goesOn_uri .tag .tagPart c.mark _).of_ahead (ahead_next c.next)).bind fun a => ?_
    exact goesOn_ite (fun _ => GoesOn.bind (goesOn_ok (ahead_next _)) hend)
      fun _ => GoesOn.bind goesOn_faultAt hend
  · refine goesOn_ite (fun _ => ?_) fun _ => ?_
    · refine (goesOn_handle .tag c.mark c).bind fun a => (goesOn_uri .tag .tagPart c.mark _).bind fun b => ?_
      exact GoesOn.bind (goesOn_ok (.refl _)) hend
    · refine GoesOn.bind (g := Prod.snd) (goesOn_ok (.refl _)) fun a =>
        (goesOn_uri .tag .tagPart c.mark _).bind fun b => ?_
      exact GoesOn.bind (goesOn_ok (.refl _)) hend

theorem goesOn_versionNumber (start : Mark) (c : Cursor) : c.GoesOn Prod.snd (c.versionNumber start) := by
  unfold versionNumber
  exact goesOn_ite (fun _ => goesOn_faultAt) fun _ => goesOn_ok (ahead_span _ c)

theorem goesOn_versionValue (start : Mark) (c : Cursor) : c.GoesOn Prod.snd (c.versionValue start) := by
  refine ((goesOn_versionNumber start _).of_ahead (ahead_skipAll ' ' c)).bind fun a => ?_
  refine goesOn_ite (fun _ => goesOn_faultAt) fun _ => ?_
  refine ((goesOn_versionNumber start _).of_ahead (ahead_next _)).bind fun b => ?_
  exact goesOn_ite (fun _ => goesOn_ok (.refl _)) fun _ => goesOn_faultAt

theorem goesOn_tagValue (start : Mark) (c : Cursor) : c.GoesOn Prod.snd (c.tagValue start) := by
  refine ((goesOn_handle .directive start _).of_ahead ((ahead_skipAll ' ' c).trans (ahead_next _))).bind fun a => ?_
  refine goesOn_ite (fun _ => goesOn_faultAt) fun _ => ?_
  refine ((goesOn_uri .directive .directivePart start _).of_ahead (ahead_skipAll ' ' _)).bind fun b => ?_
  exact goesOn_ite (fun _ => goesOn_ok (.refl _)) fun _ => goesOn_faultAt

/-- The rest of a line ahead of a cursor, with a comment in it or without one. -/
theorem ahead_comment (c : Cursor) :
    c.Ahead (if (c.skipAll ' ').at? '#' = true then (c.skipAll ' ').toLineEnd else c.skipAll ' ') := by
  split
  · exact (ahead_skipAll ' ' c).trans (ahead_toLineEnd _)
  · exact ahead_skipAll ' ' c

theorem goesOn_ignoredLine (context : Context) (start : Mark) (c : Cursor) :
    c.GoesOn id (c.ignoredLine context start) := by
  unfold ignoredLine
  exact goesOn_ite (fun _ => goesOn_ok ((ahead_comment c).trans (ahead_lineBreak _))) fun _ => goesOn_faultAt

theorem goesOn_directive (c : Cursor) : c.GoesOn (·.2.2) c.directive := by
  have hname : c.Ahead (c.next.span isNameChar).2 := (ahead_next c).trans (ahead_span _ _)
  have hend : ∀ x : Directive × Cursor × Mark, x.2.1.GoesOn (·.2.2)
      ((x.2.1.ignoredLine .directive c.mark) >>= fun behind => Except.ok (x.1, x.2.2, behind)) :=
    fun x => (goesOn_ignoredLine .directive c.mark _).bind fun behind => goesOn_ok (.refl _)
  unfold directive
  dsimp only
  refine goesOn_ite (fun _ => goesOn_faultAt) fun _ => GoesOn.of_ahead hname ?_
  refine goesOn_ite (fun _ => ?_) fun _ => goesOn_ite (fun _ => ?_) fun _ => ?_
  · exact (GoesOn.map (g := (·.2.1)) (goesOn_versionValue c.mark _)).bind hend
  · exact (GoesOn.map (g := (·.2.1)) (goesOn_tagValue c.mark _)).bind hend
  · exact GoesOn.bind (g := (·.2.1)) (goesOn_ok (ahead_toLineEnd _)) hend

end Properties

section Plain

theorem ahead_plainBreaks (fuel : Nat) (c : Cursor) : c.Ahead (plainBreaks fuel c).2 := by
  induction fuel generalizing c with
  | zero => rfl
  | succ fuel ih =>
    rw [plainBreaks]
    split
    · exact (ahead_next c).trans (ih _)
    · split
      · dsimp only
        split
        · exact ahead_lineBreak c
        · exact (ahead_lineBreak c).trans (ih _)
      · rfl
    · rfl

theorem ahead_plainSpaces (c : Cursor) : c.Ahead c.plainSpaces.2.2 := by
  have hblanks : c.Ahead (c.span (· = ' ')).2 := ahead_span _ c
  unfold plainSpaces
  dsimp only
  split
  · have hbreak := hblanks.trans (ahead_lineBreak _)
    split
    · exact hbreak
    · split
      next heq =>
        have := ahead_plainBreaks (c.span (· = ' ')).2.lineBreak.2.rest.length (c.span (· = ' ')).2.lineBreak.2
        rw [heq] at this
        exact hbreak.trans this
      next heq =>
        have := ahead_plainBreaks (c.span (· = ' ')).2.lineBreak.2.rest.length (c.span (· = ' ')).2.lineBreak.2
        rw [heq] at this
        exact hbreak.trans this
  · exact hblanks

theorem ahead_plainFrom (inFlow : Bool) (indent : Int) (fuel : Nat) (spaces : List Char) (s : PlainScan) :
    s.cursor.Ahead (plainFrom inFlow indent fuel spaces s).cursor := by
  induction fuel generalizing spaces s with
  | zero => rfl
  | succ fuel ih =>
    have hrun : s.cursor.Ahead (s.cursor.skip (plainRun inFlow s.cursor.rest).length).plainSpaces.2.2 :=
      (ahead_skip _ _).trans (ahead_plainSpaces _)
    rw [plainFrom]
    dsimp only
    split
    · rfl
    split
    · rfl
    split
    · exact hrun
    · exact hrun.trans (ih _ _)

theorem ahead_plain (inFlow : Bool) (indent : Int) (c : Cursor) : c.Ahead (c.plain inFlow indent).cursor :=
  ahead_plainFrom inFlow indent _ [] _

end Plain

section Quoted

theorem goesOn_quotedBreaks (start : Mark) (fuel : Nat) (c : Cursor) :
    c.GoesOn Prod.snd (quotedBreaks start fuel c) := by
  induction fuel generalizing c with
  | zero => exact goesOn_ok (.refl c)
  | succ fuel ih =>
    have hblanks : c.Ahead (c.span fun x => x = ' ' || x = '\t').2 := ahead_span _ c
    rw [quotedBreaks]
    refine goesOn_ite (fun _ => goesOn_faultAt) fun _ => goesOn_ite (fun _ => ?_) fun _ => goesOn_ok hblanks
    exact ((ih _).of_ahead (hblanks.trans (ahead_lineBreak _))).bind fun a => goesOn_ok (.refl _)

theorem goesOn_quotedSpaces (start : Mark) (c : Cursor) : c.GoesOn Prod.snd (quotedSpaces start c) := by
  have hblanks : c.Ahead (c.span fun x => x = ' ' || x = '\t').2 := ahead_span _ c
  unfold quotedSpaces
  dsimp only
  split
  · exact goesOn_faultAt
  · refine goesOn_ite (fun _ => ?_) fun _ => goesOn_ok hblanks
    exact ((goesOn_quotedBreaks start _ _).of_ahead (hblanks.trans (ahead_lineBreak _))).bind
      fun a => goesOn_ok (.refl _)

theorem hexDigit_lt {c : Char} (h : isHexDigit c = true) : hexDigit c < 16 := by
  have hascii : c.toNat < 128 := by
    simp only [isHexDigit, Char.isDigit_iff_toNat, Bool.or_eq_true, Bool.and_eq_true, decide_eq_true_eq,
      Char.le_def, UInt32.le_iff_toNat_le] at h
    have : c.val.toNat = c.toNat := rfl
    have : '9'.toNat = 57 := rfl
    have : 'f'.val.toNat = 102 := rfl
    have : 'F'.val.toNat = 70 := rfl
    omega
  have := of_ascii (p := fun c => !isHexDigit c || decide (hexDigit c < 16)) hascii (by decide)
  simpa [h] using this

/-- Only a number of eight digits can be above those of all characters. -/
theorem eq_of_beyond {x : Char} {count : Nat} {ds : List Char} (hx : escapeNumbers.lookup x = some count)
    (hds : ∀ d ∈ ds, isHexDigit d = true) (hlength : ds.length = count) (hbeyond : 0x110000 ≤ hexValue ds) :
    x = 'U' ∧ count = 8 := by
  have hlt : hexValue ds < 16 ^ count :=
    hlength ▸ hexValue_eq_valueOf ds ▸ Text.valueOf_lt fun d hd => hexDigit_lt (hds d hd)
  obtain ⟨before, after, heq, -⟩ := List.lookup_eq_some_iff.1 hx
  have hmem : (x, count) ∈ escapeNumbers := by simp [heq]
  simp only [escapeNumbers, List.mem_cons, Prod.mk.injEq, List.not_mem_nil, or_false] at hmem
  obtain ⟨rfl, rfl⟩ | ⟨rfl, rfl⟩ | h := hmem
  · omega
  · omega
  · exact h

/-- An escape by number stands behind a backslash and a letter. -/
theorem goesOn_hexEscape (start : Mark) {c : Cursor} {x : Char} {count : Nat} {t : List Char}
    (h : c.rest = '\\' :: x :: t) (hx : escapeNumbers.lookup x = some count) :
    c.GoesOn Prod.snd (hexEscape start count c.next.next) := by
  have hrest : c.next.next.rest = t := by rw [next_rest, next_rest, h, List.tail_cons, List.tail_cons]
  have hbehind : c.Ahead c.next.next := (ahead_next c).trans (ahead_next _)
  unfold hexEscape
  rw [hrest]
  dsimp only
  set ds := (t.take count).takeWhile isHexDigit with hds
  refine goesOn_ite (fun hlength => ?_) fun _ => goesOn_faultAt
  have hdigits : ∀ d ∈ ds, isHexDigit d = true := fun d => List.mem_takeWhile_imp
  unfold charOf
  by_cases hrange : hexValue ds < 0x110000
  · rw [if_pos hrange]
    exact goesOn_ok (hbehind.trans (ahead_skip _ _))
  · rw [if_neg hrange]
    obtain ⟨rfl, rfl⟩ := eq_of_beyond hx hdigits hlength (not_lt.1 hrange)
    refine ⟨nofun, fun e he => .inr ⟨c, _, .refl c, ⟨ds, t.drop 8, ?_, hlength, hdigits, not_lt.1 hrange, rfl⟩,
      (Except.error.inj he).symm⟩⟩
    have htake : ds = t.take 8 := by
      refine (List.takeWhile_prefix _).eq_of_length_le ?_
      rw [hlength]
      exact List.length_take_le 8 t
    rw [htake, List.take_append_drop, h]

theorem goesOn_escape (start : Mark) {c : Cursor} {t : List Char} (h : c.rest = '\\' :: t) :
    c.GoesOn Prod.snd (escape start c.next) := by
  have hrest : c.next.rest = t := by rw [next_rest, h, List.tail_cons]
  unfold escape
  split
  · exact goesOn_faultAt
  next x hx =>
    split
    · exact goesOn_ok ((ahead_next c).trans (ahead_next _))
    next count hcount =>
      obtain ⟨more, hmore⟩ := List.head?_eq_some_iff.1 hx
      rw [hrest] at hmore
      exact GoesOn.map (g := Prod.snd) (goesOn_hexEscape start (hmore ▸ h) hcount)
    · refine goesOn_ite (fun _ => ?_) fun _ => goesOn_faultAt
      exact (goesOn_quotedBreaks start _ _).of_ahead ((ahead_next c).trans (ahead_lineBreak _))

theorem goesOn_quotedStep (double : Bool) (start : Mark) (c : Cursor) :
    c.GoesOn Prod.snd (quotedStep double start c) := by
  unfold quotedStep
  split
  · exact goesOn_faultAt
  next x hx =>
    refine goesOn_ite (fun _ => GoesOn.map (g := Prod.snd) (goesOn_quotedSpaces start c)) fun _ => ?_
    refine goesOn_ite (fun _ => goesOn_ite (fun _ => goesOn_ok (ahead_next c)) fun _ => ?_) fun _ => ?_
    · refine goesOn_ite (fun hslash => ?_) fun _ => goesOn_ok (ahead_next c)
      subst hslash
      obtain ⟨t, ht⟩ := List.head?_eq_some_iff.1 hx
      exact GoesOn.map (g := Prod.snd) (goesOn_escape start ht)
    · refine goesOn_ite (fun _ => ?_) fun _ => goesOn_ok (ahead_next c)
      exact goesOn_ite (fun _ => goesOn_ok (ahead_skip c 2)) fun _ => goesOn_ok (ahead_next c)

theorem goesOn_quotedFrom (double : Bool) (start : Mark) (fuel : Nat) (c : Cursor) :
    c.GoesOn Prod.snd (quotedFrom double start fuel c) := by
  induction fuel generalizing c with
  | zero => exact goesOn_ok (.refl c)
  | succ fuel ih =>
    rw [quotedFrom]
    refine (goesOn_quotedStep double start c).bind fun a => ?_
    split
    · exact goesOn_ok (.refl _)
    · exact (ih _).bind fun b => goesOn_ok (.refl _)

theorem goesOn_quoted (double : Bool) (c : Cursor) : c.GoesOn Prod.snd (c.quoted double) :=
  (goesOn_quotedFrom double c.mark _ _).of_ahead (ahead_next c)

end Quoted

section Block

theorem goesOn_blockIndicators (start : Mark) (c : Cursor) : c.GoesOn (·.2.2) (c.blockIndicators start) := by
  unfold blockIndicators
  extract_lets chomp digit
  have hchomp : ∀ d : Cursor, d.Ahead (chomp d).2 := fun d => by
    dsimp only [chomp]
    split
    · exact ahead_next d
    · exact ahead_next d
    · rfl
  have hdigit : ∀ d : Cursor, d.GoesOn Prod.snd (digit d) := fun d => by
    dsimp only [digit]
    split
    · refine goesOn_ite (fun _ => goesOn_faultAt) fun _ => ?_
      exact goesOn_ite (fun _ => goesOn_ok (ahead_next d)) fun _ => goesOn_ok (.refl d)
    · exact goesOn_ok (.refl d)
  refine ((hdigit _).of_ahead (hchomp c)).bind fun a => ?_
  have hbehind : a.2.Ahead (if ((chomp c).1.isNone && a.1.isSome) = true then chomp a.2 else ((chomp c).1, a.2)).2 := by
    split
    · exact hchomp a.2
    · rfl
  exact goesOn_ite (fun _ => goesOn_ok hbehind) fun _ => goesOn_faultAt

theorem ahead_blockLead (fuel deepest : Nat) (stop : Mark) (c : Cursor) :
    c.Ahead (blockLead fuel deepest stop c).2.2.2 := by
  induction fuel generalizing deepest stop c with
  | zero => rfl
  | succ fuel ih =>
    rw [blockLead]
    split
    · exact (ahead_next c).trans (ih _ _ _)
    · split
      · exact (ahead_lineBreak c).trans (ih _ _ _)
      · rfl
    · rfl

theorem ahead_toColumn (indent fuel : Nat) (c : Cursor) : c.Ahead (toColumn indent fuel c) := by
  induction fuel generalizing c with
  | zero => rfl
  | succ fuel ih =>
    rw [toColumn]
    split
    · exact (ahead_next c).trans (ih _)
    · rfl

theorem ahead_blockBreaks (indent fuel : Nat) (stop : Mark) (c : Cursor) :
    c.Ahead (blockBreaks indent fuel stop c).2.2 := by
  induction fuel generalizing stop c with
  | zero => rfl
  | succ fuel ih =>
    have hcolumn := ahead_toColumn indent indent c
    rw [blockBreaks]
    dsimp only
    split
    · exact (hcolumn.trans (ahead_lineBreak _)).trans (ih _ _)
    · exact hcolumn

theorem ahead_blockLines (folded : Bool) (indent fuel : Nat) (text last breaks : List Char) (stop : Mark) (c : Cursor) :
    c.Ahead (blockLines folded indent fuel text last breaks stop c).2.2.2.2 := by
  induction fuel generalizing text last breaks stop c with
  | zero => rfl
  | succ fuel ih =>
    have hline : c.Ahead (blockBreaks indent ((c.span (!isBreak ·)).2.lineBreak.2.rest.length + 1)
        (c.span (!isBreak ·)).2.lineBreak.2.mark (c.span (!isBreak ·)).2.lineBreak.2).2.2 :=
      ((ahead_span _ c).trans (ahead_lineBreak _)).trans (ahead_blockBreaks _ _ _ _)
    rw [blockLines]
    dsimp only
    split
    · split
      · exact hline.trans (ih _ _ _ _ _)
      · exact hline
    · rfl

theorem goesOn_block (folded : Bool) (parent : Int) (c : Cursor) : c.GoesOn (·.2.2) (c.block folded parent) := by
  refine ((goesOn_blockIndicators c.mark _).of_ahead (ahead_next c)).bind fun a =>
    (goesOn_ignoredLine .blockScalar c.mark _).bind fun b => ?_
  dsimp only
  refine goesOn_ok (Ahead.trans ?_ (ahead_blockLines _ _ _ _ _ _ _ _))
  cases a.2.1 with
  | none => exact ahead_blockLead _ _ _ b
  | some _ => exact ahead_blockBreaks _ _ _ b

end Block

end Cursor

end NoteVault.Yaml
