import Mathlib.Tactic
import NoteVault.Proofs.Calendar
import NoteVault.Proofs.Failure
import NoteVault.Proofs.Number.Grammar
import NoteVault.Yaml.Timestamp

/-!
The form of a timestamp, and the range of its numbers. What is read of a text is what is written there, and it stands
for a point in time exactly where all its numbers are in range.
-/
namespace NoteVault.Yaml.Timestamp

open Number

/-- One or two digits. -/
def IsShort (ds : List Char) : Prop := (∀ d ∈ ds, d.isDigit = true) ∧ (ds.length = 1 ∨ ds.length = 2)

theorem shortNumber_eq_some_iff {s ds rest : List Char} : shortNumber s = some (ds, rest) ↔
    s = ds ++ rest ∧ IsShort ds ∧ (ds.length = 1 → rest.head?.any Char.isDigit = false) := by
  constructor
  · intro h
    unfold shortNumber at h
    split at h
    next a b tail =>
      split at h
      next => cases h
      next ha =>
        split at h
        next hb =>
          cases h
          exact ⟨rfl, ⟨by simp_all, .inr rfl⟩, nofun⟩
        next hb =>
          cases h
          exact ⟨rfl, ⟨by simp_all, .inl rfl⟩, fun _ => by simpa using hb⟩
    next a =>
      split at h
      next ha =>
        cases h
        exact ⟨rfl, ⟨by simp_all, .inl rfl⟩, fun _ => rfl⟩
      next => cases h
    next => cases h
  · rintro ⟨rfl, ⟨hds, hlength⟩, hrest⟩
    obtain hlength | hlength := hlength
    · obtain ⟨a, rfl⟩ := List.length_eq_one_iff.1 hlength
      have ha := hds a List.mem_cons_self
      cases rest with
      | nil => simp [shortNumber, ha]
      | cons b rest =>
        have hb : b.isDigit = false := by simpa using hrest rfl
        simp [shortNumber, ha, hb]
    · obtain ⟨a, b, rfl⟩ := List.length_eq_two.1 hlength
      simp [shortNumber, hds a (by simp), hds b (by simp)]

theorem shortNumber_append {ds : List Char} (h : IsShort ds) (rest : List Char)
    (hrest : rest.head?.any Char.isDigit = false) : shortNumber (ds ++ rest) = some (ds, rest) :=
  shortNumber_eq_some_iff.2 ⟨rfl, h, fun _ => hrest⟩

theorem colonNumber_eq_some_iff {s rest : List Char} {n : Nat} : colonNumber s = some (n, rest) ↔
    ∃ a b, s = ':' :: a :: b :: rest ∧ a.isDigit = true ∧ b.isDigit = true ∧ n = decimalValue [a, b] := by
  constructor
  · intro h
    unfold colonNumber at h
    split at h
    next a b tail =>
      split at h
      next hab =>
        cases h
        rw [Bool.and_eq_true] at hab
        exact ⟨a, b, rfl, hab.1, hab.2, rfl⟩
      next => cases h
    next => cases h
  · rintro ⟨a, b, rfl, ha, hb, rfl⟩
    simp [colonNumber, ha, hb]

/-- A number of minutes ahead of universal time, or behind it. -/
def ahead (sign : Char) (minutes : Nat) : Int := if sign = '-' then -(minutes : Int) else minutes

/-- A time zone and its distance from universal time in minutes. -/
inductive IsZone : List Char → Int → Prop
  | universal : IsZone ['Z'] 0
  | hours {sign : Char} {hours : List Char} (hsign : sign = '+' ∨ sign = '-') (h : IsShort hours) :
    IsZone (sign :: hours) (ahead sign (60 * decimalValue hours))
  | minutes {sign a b : Char} {hours : List Char} (hsign : sign = '+' ∨ sign = '-') (h : IsShort hours)
    (ha : a.isDigit = true) (hb : b.isDigit = true) :
    IsZone (sign :: (hours ++ [':', a, b])) (ahead sign (60 * decimalValue hours + decimalValue [a, b]))

theorem isZone_of_readZone {s : List Char} {n : Int} (h : readZone s = some n) : IsZone s n := by
  unfold readZone at h
  split at h
  · cases h
    exact .universal
  next sign rest _ =>
    by_cases hnot : sign ≠ '+' ∧ sign ≠ '-'
    · rw [if_pos hnot] at h
      cases h
    · rw [if_neg hnot] at h
      have hsign : sign = '+' ∨ sign = '-' := by tauto
      obtain ⟨⟨hours, behind⟩, hhours, hread⟩ := Option.bind_eq_some_iff.1 h
      clear h
      obtain ⟨rfl, hshort, -⟩ := shortNumber_eq_some_iff.1 hhours
      cases behind with
      | nil =>
        obtain rfl : ahead sign (60 * decimalValue hours) = n := Option.some.inj hread
        rw [List.append_nil]
        exact .hours hsign hshort
      | cons x behind =>
        dsimp only at hread
        cases hm : colonNumber (x :: behind) with
        | none =>
          rw [hm] at hread
          cases hread
        | some o =>
          obtain ⟨m, rest⟩ := o
          rw [hm] at hread
          cases rest with
          | cons _ _ => cases hread
          | nil =>
            obtain ⟨a, b, heq, ha, hb, rfl⟩ := colonNumber_eq_some_iff.1 hm
            obtain rfl : ahead sign (60 * decimalValue hours + decimalValue [a, b]) = n := Option.some.inj hread
            rw [heq]
            exact .minutes hsign hshort ha hb
  · cases h

theorem readZone_of_isZone {s : List Char} {n : Int} (h : IsZone s n) : readZone s = some n := by
  cases h with
  | universal => rfl
  | @hours sign hours hsign h =>
    have hshort : shortNumber hours = some (hours, []) := by simpa using shortNumber_append h [] rfl
    obtain rfl | rfl := hsign <;> simp [readZone, hshort, ahead]
  | @minutes sign a b hours hsign h ha hb =>
    have hshort := shortNumber_append h [':', a, b] rfl
    have hcolon : colonNumber [':', a, b] = some (decimalValue [a, b], []) :=
      colonNumber_eq_some_iff.2 ⟨a, b, rfl, ha, hb, rfl⟩
    obtain rfl | rfl := hsign <;> simp [readZone, hshort, hcolon, ahead]

/-- What may stand in front of a time zone or a time of day. -/
def IsGap (s : List Char) : Prop := ∀ c ∈ s, c = ' ' ∨ c = '\t'

/-- A fraction of a second, or none. -/
inductive IsFraction : List Char → List Char → Prop
  | none : IsFraction [] []
  | point {ds : List Char} (h : ∀ d ∈ ds, d.isDigit = true) : IsFraction ('.' :: ds) ds

/-- A time zone behind blanks, or none. -/
inductive IsZonePart : List Char → Option Int → Prop
  | none : IsZonePart [] none
  | zone {gap s : List Char} {n : Int} (hgap : IsGap gap) (h : IsZone s n) : IsZonePart (gap ++ s) (some n)

/-- A time of day as it is written. -/
def IsClock (s : List Char) (t : ClockText) : Prop := ∃ hour a b c d fraction zone,
  s = hour ++ ':' :: a :: b :: ':' :: c :: d :: (fraction ++ zone) ∧ IsShort hour ∧ t.hour = decimalValue hour ∧
    (a.isDigit = true ∧ b.isDigit = true ∧ t.minute = decimalValue [a, b]) ∧
    (c.isDigit = true ∧ d.isDigit = true ∧ t.second = decimalValue [c, d]) ∧
    IsFraction fraction t.fraction ∧ IsZonePart zone t.zone

theorem isGap_iff {c : Char} : isGap c = true ↔ c = ' ' ∨ c = '\t' := by
  simp [isGap]

theorem IsZone.head_not {s : List Char} {n : Int} (h : IsZone s n) :
    s.head?.any isGap = false ∧ s.head?.any Char.isDigit = false ∧ s.head? ≠ some '.' ∧ s ≠ [] := by
  cases h with
  | universal => decide
  | hours hsign _ => obtain rfl | rfl := hsign <;> simp [isGap]
  | minutes hsign _ _ _ => obtain rfl | rfl := hsign <;> simp [isGap]

theorem dropWhile_gap {gap s : List Char} (hgap : IsGap gap) (hs : s.head?.any isGap = false) :
    (gap ++ s).dropWhile isGap = s := by
  rw [List.dropWhile_append_of_pos fun c hc => isGap_iff.2 (hgap c hc)]
  cases s with
  | nil => rfl
  | cons c s => simpa using hs

theorem IsZonePart.head_not {s : List Char} {zone : Option Int} (h : IsZonePart s zone) :
    s.head?.any Char.isDigit = false ∧ s.head? ≠ some '.' := by
  cases h with
  | none => decide
  | @zone gap s n hgap h =>
    cases gap with
    | nil => exact ⟨h.head_not.2.1, h.head_not.2.2.1⟩
    | cons c gap => obtain rfl | rfl := hgap c List.mem_cons_self <;> simp

theorem zonePart_eq_some_iff {s : List Char} {zone : Option Int} : zonePart s = some zone ↔ IsZonePart s zone := by
  constructor
  · intro h
    unfold zonePart at h
    split at h
    · cases h
      exact .none
    · obtain ⟨n, hn, rfl⟩ := Option.map_eq_some_iff.1 h
      rw [← List.takeWhile_append_dropWhile (p := isGap) (l := s)]
      exact .zone (fun c hc => isGap_iff.1 (List.mem_takeWhile_imp hc)) (isZone_of_readZone hn)
  · intro h
    cases h with
    | none => rfl
    | @zone gap s n hgap h =>
      obtain ⟨hhead, -, -, hne⟩ := h.head_not
      have hdrop := dropWhile_gap hgap hhead
      unfold zonePart
      split
      next heq => exact absurd (List.append_eq_nil_iff.1 heq).2 hne
      next => rw [hdrop, readZone_of_isZone h, Option.map_some]

theorem exists_readFraction (s : List Char) :
    ∃ fraction, s = fraction ++ (readFraction s).2 ∧ IsFraction fraction (readFraction s).1 := by
  unfold readFraction
  split
  next rest =>
    exact ⟨'.' :: rest.takeWhile Char.isDigit, by simp [List.takeWhile_append_dropWhile],
      .point fun _ => List.mem_takeWhile_imp⟩
  next => exact ⟨[], rfl, .none⟩

theorem readFraction_append {fraction ds rest : List Char} (h : IsFraction fraction ds)
    (hrest : rest.head?.any Char.isDigit = false ∧ rest.head? ≠ some '.') :
    readFraction (fraction ++ rest) = (ds, rest) := by
  cases h with
  | none =>
    rw [List.nil_append, readFraction.eq_def]
    split
    next => exact absurd rfl hrest.2
    next => rfl
  | point h =>
    obtain ⟨htake, hdrop⟩ := span_digits h hrest.1
    rw [List.cons_append, readFraction, htake, hdrop]

theorem isClock_of_readClock {s : List Char} {t : ClockText} (h : readClock s = some t) : IsClock s t := by
  unfold readClock at h
  obtain ⟨⟨hour, rest⟩, hhour, h⟩ := Option.bind_eq_some_iff.1 h
  obtain ⟨⟨minute, rest'⟩, hminute, h⟩ := Option.bind_eq_some_iff.1 h
  obtain ⟨⟨second, rest''⟩, hsecond, h⟩ := Option.bind_eq_some_iff.1 h
  obtain ⟨zone, hzone, h⟩ := Option.bind_eq_some_iff.1 h
  obtain rfl := Option.some.inj h
  obtain ⟨rfl, hshort, -⟩ := shortNumber_eq_some_iff.1 hhour
  obtain ⟨a, b, rfl, ha, hb, rfl⟩ := colonNumber_eq_some_iff.1 hminute
  obtain ⟨c, d, rfl, hc, hd, rfl⟩ := colonNumber_eq_some_iff.1 hsecond
  obtain ⟨fraction, hrest, hfraction⟩ := exists_readFraction rest''
  exact ⟨hour, a, b, c, d, fraction, _, congrArg (hour ++ ':' :: a :: b :: ':' :: c :: d :: ·) hrest, hshort, rfl,
    ⟨ha, hb, rfl⟩, ⟨hc, hd, rfl⟩, hfraction, zonePart_eq_some_iff.1 hzone⟩

theorem readClock_of_isClock {s : List Char} {t : ClockText} (h : IsClock s t) : readClock s = some t := by
  obtain ⟨hour, a, b, c, d, fraction, zone, rfl, hshort, hhour, ⟨ha, hb, hminute⟩, ⟨hc, hd, hsecond⟩, hfraction,
    hzone⟩ := h
  have hread := shortNumber_append hshort (':' :: a :: b :: ':' :: c :: d :: (fraction ++ zone)) rfl
  have hread' : colonNumber (':' :: a :: b :: ':' :: c :: d :: (fraction ++ zone)) =
      some (t.minute, ':' :: c :: d :: (fraction ++ zone)) :=
    colonNumber_eq_some_iff.2 ⟨a, b, rfl, ha, hb, hminute⟩
  have hread'' : colonNumber (':' :: c :: d :: (fraction ++ zone)) = some (t.second, fraction ++ zone) :=
    colonNumber_eq_some_iff.2 ⟨c, d, rfl, hc, hd, hsecond⟩
  have hfraction' := readFraction_append hfraction hzone.head_not
  obtain ⟨_, _, _, _, _⟩ := t
  subst hhour
  simp [readClock, hread, hread', hread'', hfraction', zonePart_eq_some_iff.2 hzone]

/-- A time of day behind a letter or behind blanks, or none. -/
inductive IsClockPart : List Char → Option ClockText → Prop
  | none : IsClockPart [] none
  | letter {c : Char} {s : List Char} {t : ClockText} (hc : c = 'T' ∨ c = 't') (h : IsClock s t) :
    IsClockPart (c :: s) (some t)
  | gap {gap s : List Char} {t : ClockText} (hne : gap ≠ []) (hgap : IsGap gap) (h : IsClock s t) :
    IsClockPart (gap ++ s) (some t)

theorem IsClock.head_not {s : List Char} {t : ClockText} (h : IsClock s t) : s.head?.any isGap = false := by
  obtain ⟨hour, a, b, c, d, fraction, zone, rfl, ⟨hdigits, hlength⟩, -⟩ := h
  cases hour with
  | nil => simp at hlength
  | cons x hour =>
    have hx := hdigits x List.mem_cons_self
    rw [List.cons_append, List.head?_cons, Option.any_some, ← Bool.not_eq_true, isGap_iff]
    rintro (rfl | rfl) <;> cases hx

theorem gapClock_eq_some_iff {s : List Char} {clock : Option ClockText} :
    gapClock s = some clock ↔ IsClockPart s clock := by
  constructor
  · intro h
    unfold gapClock at h
    split at h
    · cases h
      exact .none
    next c rest =>
      split at h
      next hc =>
        obtain ⟨t, ht, rfl⟩ := Option.map_eq_some_iff.1 h
        exact .letter hc (isClock_of_readClock ht)
      next =>
        split at h
        next hc =>
          obtain ⟨t, ht, rfl⟩ := Option.map_eq_some_iff.1 h
          rw [← List.takeWhile_append_dropWhile (p := isGap) (l := rest), ← List.cons_append]
          refine .gap (List.cons_ne_nil _ _) (List.forall_mem_cons.2 ⟨isGap_iff.1 hc, fun d hd => ?_⟩)
            (isClock_of_readClock ht)
          exact isGap_iff.1 (List.mem_takeWhile_imp hd)
        next => cases h
  · intro h
    cases h with
    | none => rfl
    | letter hc h => rw [gapClock, if_pos hc, readClock_of_isClock h, Option.map_some]
    | @gap gap s t hne hgap h =>
      obtain ⟨c, gap, rfl⟩ := List.exists_cons_of_ne_nil hne
      have hc := hgap c List.mem_cons_self
      have hnot : ¬ (c = 'T' ∨ c = 't') := by obtain rfl | rfl := hc <;> decide
      have hdrop := dropWhile_gap (fun d hd => hgap d (List.mem_cons_of_mem c hd)) h.head_not
      rw [List.cons_append, gapClock, if_neg hnot, if_pos (isGap_iff.2 hc), hdrop, readClock_of_isClock h,
        Option.map_some]

theorem IsClockPart.head_not {s : List Char} {clock : Option ClockText} (h : IsClockPart s clock) :
    s.head?.any Char.isDigit = false := by
  cases h with
  | none => rfl
  | letter hc _ => obtain rfl | rfl := hc <;> rfl
  | @gap gap s t hne hgap h =>
    obtain ⟨c, gap, rfl⟩ := List.exists_cons_of_ne_nil hne
    obtain rfl | rfl := hgap c List.mem_cons_self <;> rfl

/-- Four digits for the year, one or two for month and day with hyphens in front of them, and a time of day behind
them. -/
def IsWritten (s : List Char) (t : Timestamp) : Prop := ∃ year month day clock,
  s = year ++ '-' :: (month ++ '-' :: (day ++ clock)) ∧ (∀ d ∈ year, d.isDigit = true) ∧ year.length = 4 ∧
    t.year = decimalValue year ∧ (IsShort month ∧ t.month = decimalValue month) ∧
    (IsShort day ∧ t.day = decimalValue day) ∧ IsClockPart clock t.clock ∧
    t.full = (month.length = 2 && day.length = 2)

theorem isWritten_of_ofText? {s : List Char} {t : Timestamp} (h : ofText? s = some t) : IsWritten s t := by
  unfold ofText? at h
  split at h
  next y1 y2 y3 y4 rest =>
    by_cases hyear : [y1, y2, y3, y4].all Char.isDigit = false
    · rw [if_pos hyear] at h
      cases h
    rw [if_neg hyear] at h
    obtain ⟨⟨month, rest'⟩, hmonth, h⟩ := Option.bind_eq_some_iff.1 h
    dsimp only at h
    split at h
    next rest'' =>
      obtain ⟨⟨day, behind⟩, hday, h⟩ := Option.bind_eq_some_iff.1 h
      obtain ⟨clock, hclock, h⟩ := Option.bind_eq_some_iff.1 h
      obtain rfl := Option.some.inj h
      obtain ⟨rfl, hmonth', -⟩ := shortNumber_eq_some_iff.1 hmonth
      obtain ⟨rfl, hday', -⟩ := shortNumber_eq_some_iff.1 hday
      rw [Bool.not_eq_false, List.all_eq_true] at hyear
      exact ⟨[y1, y2, y3, y4], month, day, behind, rfl, hyear, rfl, rfl, ⟨hmonth', rfl⟩, ⟨hday', rfl⟩,
        gapClock_eq_some_iff.1 hclock, rfl⟩
    next => cases h
  next => cases h

theorem ofText?_of_isWritten {s : List Char} {t : Timestamp} (h : IsWritten s t) : ofText? s = some t := by
  obtain ⟨year, month, day, clock, rfl, hyear, hlength, hvalue, ⟨hmonth, hmonth'⟩, ⟨hday, hday'⟩, hclock, hfull⟩ := h
  obtain ⟨y1, y2, y3, y4, rfl⟩ : ∃ y1 y2 y3 y4, year = [y1, y2, y3, y4] := by
    match year, hlength with
    | [y1, y2, y3, y4], _ => exact ⟨y1, y2, y3, y4, rfl⟩
  have hnot : ¬ [y1, y2, y3, y4].all Char.isDigit = false := by
    rw [Bool.not_eq_false, List.all_eq_true]
    exact hyear
  have hread := shortNumber_append hmonth ('-' :: (day ++ clock)) rfl
  have hread' := shortNumber_append hday clock hclock.head_not
  have hread'' := gapClock_eq_some_iff.2 hclock
  obtain ⟨_, _, _, _, _⟩ := t
  subst hvalue hmonth' hday' hfull
  simp only [List.cons_append, List.nil_append]
  rw [ofText?, if_neg hnot, hread]
  simp only [Option.bind_eq_bind, Option.bind_some, hread', hread'']

theorem ofText?_eq_some_iff {s : List Char} {t : Timestamp} : ofText? s = some t ↔ IsWritten s t :=
  ⟨isWritten_of_ofText?, ofText?_of_isWritten⟩

/-- The numbers of a timestamp are those of a day, a time of day, and a time zone less than a day away. -/
structure InRange (t : Timestamp) : Prop where
  year : 1 ≤ t.year ∧ t.year ≤ 9999
  month : 1 ≤ t.month ∧ t.month ≤ 12
  day : 1 ≤ t.day ∧ t.day ≤ Calendar.daysInMonth t.year t.month
  clock : ∀ c, t.clock = some c → c.hour ≤ 23 ∧ c.minute ≤ 59 ∧ c.second ≤ 59 ∧ ∀ n, c.zone = some n → n.natAbs < 1440

theorem exists_offset_iff (n : Int) : (∃ offset, DateTime.offsetOfMinutes n = .ok offset) ↔ n.natAbs < 1440 := by
  by_cases hn : n.natAbs < 1440 <;> simp [DateTime.offsetOfMinutes, hn]

theorem exists_value_iff (t : Timestamp) : (∃ v, t.value = .ok v) ↔ t.InRange := by
  obtain ⟨year, month, day, full, clock⟩ := t
  cases clock with
  | none =>
    rw [value, exists_map, Date.exists_make_iff]
    exact ⟨fun ⟨hy, hm, hd⟩ => ⟨hy, hm, hd, nofun⟩, fun h => ⟨h.year, h.month, h.day⟩⟩
  | some c =>
    obtain ⟨hour, minute, second, fraction, zone⟩ := c
    have htime := DateTime.exists_make_iff year month day hour minute second (DateTime.microsecondsOf fraction)
    constructor
    · rintro ⟨v, h⟩
      cases zone with
      | none =>
        obtain ⟨offset, -, h⟩ := bind_eq_ok.1 h
        obtain ⟨time, hmake, -⟩ := bind_eq_ok.1 h
        obtain ⟨hy, hm, hd, hclock⟩ := (htime offset).1 ⟨time, hmake⟩
        exact ⟨hy, hm, hd, fun _ heq => by cases heq; exact ⟨hclock.1, hclock.2.1, hclock.2.2, nofun⟩⟩
      | some n =>
        obtain ⟨offset, hoffset, h⟩ := bind_eq_ok.1 h
        obtain ⟨time, hmake, -⟩ := bind_eq_ok.1 h
        obtain ⟨seconds, hseconds⟩ := exists_map.1 ⟨offset, hoffset⟩
        have hn := (exists_offset_iff n).1 ⟨seconds, hseconds⟩
        obtain ⟨hy, hm, hd, hclock⟩ := (htime offset).1 ⟨time, hmake⟩
        refine ⟨hy, hm, hd, fun _ heq => ?_⟩
        cases heq
        exact ⟨hclock.1, hclock.2.1, hclock.2.2, fun _ heq => by cases heq; exact hn⟩
    · intro h
      obtain ⟨hhour, hminute, hsecond, hzone⟩ := h.clock _ rfl
      have hrange := fun offset => (htime offset).2 ⟨h.year, h.month, h.day, hhour, hminute, hsecond⟩
      cases zone with
      | none =>
        obtain ⟨time, hmake⟩ := hrange none
        exact ⟨.inr time, bind_eq_ok.2 ⟨none, rfl, bind_eq_ok.2 ⟨time, hmake, rfl⟩⟩⟩
      | some n =>
        obtain ⟨seconds, hseconds⟩ := (exists_offset_iff n).2 (hzone n rfl)
        obtain ⟨time, hmake⟩ := hrange (some seconds)
        have hoffset : (DateTime.offsetOfMinutes n).map some = .ok (some seconds) := by
          rw [hseconds]
          rfl
        exact ⟨.inr time, bind_eq_ok.2 ⟨some seconds, hoffset, bind_eq_ok.2 ⟨time, hmake, rfl⟩⟩⟩

end NoteVault.Yaml.Timestamp
