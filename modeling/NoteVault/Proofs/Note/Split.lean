import NoteVault.Note.Split
import NoteVault.Proofs.Text.Lines

/-!
How a note falls into header and body. Its characters can be told apart in one way at most, as an opening line, the
lines of a header, none of which is a closing line, a closing line and the body; header and body are found where there
is such a way.
-/
namespace NoteVault.Note

open Text (fields)

/-- Three dashes, blanks and tabs, and perhaps a carriage return. -/
def IsClosingLine (line : List Char) : Prop :=
  ∃ gap, (∀ c ∈ gap, isGap c = true) ∧
    (line = '-' :: '-' :: '-' :: gap ∨ line = '-' :: '-' :: '-' :: gap ++ ['\r'])

theorem not_isClosingLine_nil : ¬ IsClosingLine [] := by
  rintro ⟨gap, -, h | h⟩ <;> simp at h

theorem isOpen_nil : ∀ line ∈ fields '\n' [], ¬ IsClosingLine line := by
  simpa [fields] using not_isClosingLine_nil

/-- What may stand behind the blanks of a closing line: nothing, a carriage return that ends the note, or a
line break. -/
def BeginsBody (s : List Char) : Prop :=
  s = [] ∨ s = ['\r'] ∨ (∃ rest, s = '\n' :: rest) ∨ ∃ rest, s = '\r' :: '\n' :: rest

theorem atLineEnd_iff {s : List Char} : atLineEnd s = true ↔ BeginsBody s := by
  cases s using atLineEnd.fun_cases_unfolding <;> simp_all [BeginsBody]

/-- A note with all of its characters told apart. -/
@[ext]
structure Division where
  openingGap : List Char
  lineBreak : List Char
  header : List Char
  closingGap : List Char
  body : List Char
  openingGap_isGap : ∀ c ∈ openingGap, isGap c = true
  lineBreak_eq : lineBreak = ['\n'] ∨ lineBreak = ['\r', '\n']
  header_ends : header = [] ∨ ∃ lines, header = lines ++ ['\n']
  header_open : ∀ line ∈ fields '\n' header, ¬ IsClosingLine line
  closingGap_isGap : ∀ c ∈ closingGap, isGap c = true
  body_begins : BeginsBody body

/-- The closing line and the body. -/
def Division.rest (d : Division) : List Char := '-' :: '-' :: '-' :: (d.closingGap ++ d.body)

def Division.text (d : Division) : String :=
  String.ofList ('-' :: '-' :: '-' :: (d.openingGap ++ d.lineBreak ++ (d.header ++ d.rest)))

section Gap

variable {gap gap' s s' : List Char}

/-- Blanks and tabs end where something else begins. -/
theorem span_gap (hgap : ∀ c ∈ gap, isGap c = true) (hs : s.head?.any isGap = false) :
    (gap ++ s).takeWhile isGap = gap ∧ (gap ++ s).dropWhile isGap = s := by
  rw [List.takeWhile_append_of_pos hgap, List.dropWhile_append_of_pos hgap]
  cases s with
  | nil => simp
  | cons c s => simp_all

theorem eq_of_gap_append (hgap : ∀ c ∈ gap, isGap c = true) (hs : s.head?.any isGap = false)
    (hgap' : ∀ c ∈ gap', isGap c = true) (hs' : s'.head?.any isGap = false) (h : gap ++ s = gap' ++ s') :
    gap = gap' ∧ s = s' := by
  obtain ⟨htake, hdrop⟩ := span_gap hgap hs
  obtain ⟨htake', hdrop'⟩ := span_gap hgap' hs'
  exact ⟨htake.symm.trans (h ▸ htake'), hdrop.symm.trans (h ▸ hdrop')⟩

theorem exists_gap (s : List Char) :
    ∃ gap, (∀ c ∈ gap, isGap c = true) ∧ s = gap ++ s.dropWhile isGap :=
  ⟨s.takeWhile isGap, fun _ hc => List.all_eq_true.1 List.all_takeWhile _ hc, List.takeWhile_append_dropWhile.symm⟩

end Gap

theorem opening?_eq_some_iff {s rest : List Char} : opening? s = some rest ↔
    ∃ gap lineBreak, (∀ c ∈ gap, isGap c = true) ∧ (lineBreak = ['\n'] ∨ lineBreak = ['\r', '\n']) ∧
      s = '-' :: '-' :: '-' :: (gap ++ lineBreak ++ rest) := by
  constructor
  · intro h
    unfold opening? at h
    split at h
    next s =>
      obtain ⟨gap, hgap, hs⟩ := exists_gap s
      split at h
      next after hdrop =>
        cases h
        exact ⟨gap, ['\n'], hgap, .inl rfl, by rw [hs, hdrop]; simp⟩
      next after hdrop =>
        cases h
        exact ⟨gap, ['\r', '\n'], hgap, .inr rfl, by rw [hs, hdrop]; simp⟩
      next => cases h
    next => cases h
  · rintro ⟨gap, lineBreak, hgap, rfl | rfl, rfl⟩
    · have hdrop := (span_gap hgap (s := '\n' :: rest) rfl).2
      simp [opening?, hdrop]
    · have hdrop := (span_gap hgap (s := '\r' :: '\n' :: rest) rfl).2
      simp [opening?, hdrop]

theorem head?_of_beginsBody {s : List Char} (h : BeginsBody s) : s.head?.any isGap = false := by
  rcases h with rfl | rfl | ⟨rest, rfl⟩ | ⟨rest, rfl⟩ <;> rfl

theorem closing?_eq_some_iff {s body : List Char} : closing? s = some body ↔
    ∃ gap, (∀ c ∈ gap, isGap c = true) ∧ BeginsBody body ∧ s = '-' :: '-' :: '-' :: (gap ++ body) := by
  constructor
  · intro h
    unfold closing? at h
    split at h
    next s =>
      obtain ⟨gap, hgap, hs⟩ := exists_gap s
      dsimp only at h
      split at h
      next hend =>
        cases h
        exact ⟨gap, hgap, atLineEnd_iff.1 hend, by rw [← hs]⟩
      next => cases h
    next => cases h
  · rintro ⟨gap, hgap, hbody, rfl⟩
    have hdrop := (span_gap hgap (head?_of_beginsBody hbody)).2
    simp [closing?, hdrop, atLineEnd_iff.2 hbody]

theorem exists_rest_of_line (s : List Char) :
    ∃ rest, s = s.takeWhile (· ≠ '\n') ++ rest ∧ (rest = [] ∨ ∃ more, rest = '\n' :: more) := by
  refine ⟨s.dropWhile (· ≠ '\n'), List.takeWhile_append_dropWhile.symm, ?_⟩
  cases hrest : s.dropWhile (· ≠ '\n') with
  | nil => exact .inl rfl
  | cons c more =>
    have hc := List.head?_dropWhile_not (· ≠ '\n') s
    rw [hrest] at hc
    exact .inr ⟨more, by simpa using hc⟩

/-- What begins with a closing line is told from what does not by its first line. -/
theorem closing?_eq_none_iff {s : List Char} : closing? s = none ↔ ¬ IsClosingLine (s.takeWhile (· ≠ '\n')) := by
  constructor
  · rintro hnone ⟨gap, hgap, hline⟩
    obtain ⟨rest, hs, hrest⟩ := exists_rest_of_line s
    have hsome : ∃ body, closing? s = some body := by
      obtain hline | hline := hline
      · refine ⟨rest, closing?_eq_some_iff.2 ⟨gap, hgap, ?_, by rw [hs, hline]; rfl⟩⟩
        obtain rfl | ⟨more, rfl⟩ := hrest
        · exact .inl rfl
        · exact .inr (.inr (.inl ⟨more, rfl⟩))
      · refine ⟨'\r' :: rest, closing?_eq_some_iff.2 ⟨gap, hgap, ?_, by rw [hs, hline]; simp⟩⟩
        obtain rfl | ⟨more, rfl⟩ := hrest
        · exact .inr (.inl rfl)
        · exact .inr (.inr (.inr ⟨more, rfl⟩))
    obtain ⟨body, hbody⟩ := hsome
    exact absurd (hnone.symm.trans hbody) (by simp)
  · intro hline
    refine Option.eq_none_iff_forall_ne_some.2 fun body hbody => hline ?_
    obtain ⟨gap, hgap, hbegins, rfl⟩ := closing?_eq_some_iff.1 hbody
    have hnot : '\n' ∉ '-' :: '-' :: '-' :: gap := fun hmem => by
      simp only [List.mem_cons, Char.reduceEq, false_or] at hmem
      exact absurd (hgap _ hmem) (by decide)
    have htake := Text.takeWhile_append_of_not_mem hnot body
    simp only [List.cons_append] at htake
    rw [htake]
    refine ⟨gap, hgap, ?_⟩
    rcases hbegins with rfl | rfl | ⟨rest, rfl⟩ | ⟨rest, rfl⟩
    · exact .inl (by simp)
    · exact .inr (by simp)
    · exact .inl (by simp)
    · exact .inr (by simp)

/-- Lines that are ended, none of which is a closing line, are passed over; where they begin within a line, that one is
not looked at. -/
theorem splitLines_of_no_closing {header rest body : List Char} (hrest : closing? rest = some body) (atStart : Bool)
    (h : ∀ line ∈ fields '\n' header, (atStart = true ∨ line ∈ (fields '\n' header).tail) → ¬ IsClosingLine line) :
    splitLines atStart (header ++ '\n' :: rest) = some (header ++ ['\n'], body) := by
  induction header generalizing atStart with
  | nil =>
    have hn : (if atStart then closing? ('\n' :: rest) else none) = none := by cases atStart <;> rfl
    have hs : splitLines true rest = some ([], body) := by
      unfold splitLines
      simp [hrest]
    rw [List.nil_append, splitLines, hn]
    simp [hs]
  | cons c more ih =>
    have hn : (if atStart then closing? (c :: more ++ '\n' :: rest) else none) = none := by
      cases atStart with
      | false => rfl
      | true =>
        rw [if_pos rfl, closing?_eq_none_iff, Text.takeWhile_append_sep]
        refine h _ ?_ (.inl rfl)
        rw [Text.fields_eq_cons]
        exact List.mem_cons_self
    rw [List.cons_append, splitLines, ← List.cons_append, hn]
    have hmore : ∀ line ∈ fields '\n' more, (decide (c = '\n') = true ∨ line ∈ (fields '\n' more).tail) →
        ¬ IsClosingLine line := by
      intro line hl hor
      by_cases hc : c = '\n'
      · refine h line ?_ (.inr ?_) <;> simp [fields, hc, hl]
      · have ht : line ∈ (fields '\n' more).tail := by simpa [hc] using hor
        have he : (fields '\n' (c :: more)).tail = (fields '\n' more).tail := by
          rw [fields, if_neg hc, Text.fields_eq_cons _ more]
          rfl
        exact h line (List.mem_of_mem_tail (he ▸ ht)) (.inr (he ▸ ht))
    simp [ih _ hmore]

/-- What is taken for the header is made of ended lines, none of which is a closing line, and a closing line follows. -/
theorem exists_of_splitLines {atStart : Bool} {s header body : List Char}
    (h : splitLines atStart s = some (header, body)) :
    ∃ rest, s = header ++ rest ∧ closing? rest = some body ∧
      (header = [] ∧ atStart = true ∨ ∃ lines, header = lines ++ ['\n']) ∧
      ∀ line ∈ fields '\n' header, (atStart = true ∨ line ∈ (fields '\n' header).tail) → ¬ IsClosingLine line := by
  induction s generalizing atStart header with
  | nil => cases atStart <;> simp [splitLines, closing?] at h
  | cons c s ih =>
    unfold splitLines at h
    split at h
    next after hclosing =>
      obtain ⟨rfl, rfl⟩ : [] = header ∧ after = body := by simpa using h
      cases atStart with
      | false => cases hclosing
      | true =>
        exact ⟨c :: s, rfl, hclosing, .inl ⟨rfl, rfl⟩, fun line hline _ => isOpen_nil line hline⟩
    next hnone =>
      obtain ⟨⟨more, body'⟩, hmore, he⟩ := Option.map_eq_some_iff.1 h
      obtain ⟨rfl, rfl⟩ : c :: more = header ∧ body' = body := by simpa using he
      obtain ⟨rest, rfl, hrest, hends, hopen⟩ := ih hmore
      refine ⟨rest, rfl, hrest, .inr ?_, fun line hline hor => ?_⟩
      · obtain ⟨rfl, hc⟩ | ⟨lines, rfl⟩ := hends
        · exact ⟨[], by simpa using hc⟩
        · exact ⟨c :: lines, rfl⟩
      by_cases hc : c = '\n'
      · rw [fields, if_pos hc] at hline
        obtain rfl | hline := List.mem_cons.1 hline
        · exact not_isClosingLine_nil
        · exact hopen line hline (.inl (by simpa using hc))
      · -- The header goes on to the end of the line that `c` stands in, so that line was looked at where `c` begins it.
        obtain ⟨lines, rfl⟩ := hends.resolve_left fun hnil => hc (by simpa using hnil.2)
        have hfields : fields '\n' (c :: (lines ++ ['\n'])) =
            (c :: lines ++ ['\n']).takeWhile (· ≠ '\n') :: (fields '\n' (lines ++ ['\n'])).tail := by
          rw [fields, if_neg hc, Text.fields_eq_cons '\n' (lines ++ ['\n'])]
          simp [hc]
        have hfirst : atStart = true → ¬ IsClosingLine ((c :: lines ++ ['\n']).takeWhile (· ≠ '\n')) := fun hstart => by
          have htext : c :: (lines ++ ['\n'] ++ rest) = c :: lines ++ '\n' :: rest := by simp
          rw [if_pos hstart, closing?_eq_none_iff, htext, Text.takeWhile_append_sep] at hnone
          rwa [Text.takeWhile_append_sep]
        rw [hfields] at hline hor
        obtain hstart | htail := hor
        · obtain rfl | hline := List.mem_cons.1 hline
          · exact hfirst hstart
          · exact hopen line (List.mem_of_mem_tail hline) (.inr hline)
        · exact hopen line (List.mem_of_mem_tail htail) (.inr htail)

namespace Division

/-- The header and the body of a division are found. -/
theorem split_text (d : Division) : split d.text = some (String.ofList d.header, String.ofList d.body) := by
  have hopening : opening? d.text.toList = some (d.header ++ d.rest) :=
    opening?_eq_some_iff.2 ⟨_, _, d.openingGap_isGap, d.lineBreak_eq, by simp [Division.text]⟩
  have hclosing : closing? d.rest = some d.body :=
    closing?_eq_some_iff.2 ⟨d.closingGap, d.closingGap_isGap, d.body_begins, rfl⟩
  have hlines : splitLines true (d.header ++ d.rest) = some (d.header, d.body) := by
    obtain hnil | ⟨lines, hlines⟩ := d.header_ends
    · rw [hnil, List.nil_append]
      unfold splitLines
      simp [hclosing]
    · have hopen : ∀ line ∈ fields '\n' lines, ¬ IsClosingLine line := fun line hline =>
        d.header_open line (by rw [hlines, Text.fields_append_sep]; exact List.mem_append_left _ hline)
      rw [hlines, List.append_assoc]
      exact splitLines_of_no_closing hclosing true fun line hline _ => hopen line hline
  simp only [split, hopening, Option.bind_eq_bind, Option.bind_some, hlines]
  rfl

/-- A note has one division at most. -/
theorem text_injective {d e : Division} (h : d.text = e.text) : d = e := by
  have hsplit := d.split_text.symm.trans (h ▸ e.split_text)
  simp only [Option.some.injEq, Prod.mk.injEq, String.ofList_inj] at hsplit
  obtain ⟨hheader, hbody⟩ := hsplit
  have hbreak : ∀ (d : Division) (s : List Char), (d.lineBreak ++ s).head?.any isGap = false := fun d s => by
    obtain hd | hd := d.lineBreak_eq <;> rw [hd] <;> rfl
  simp only [Division.text, String.ofList_inj, List.cons.injEq, true_and, List.append_assoc] at h
  obtain ⟨hopeningGap, h⟩ := eq_of_gap_append d.openingGap_isGap (hbreak d _) e.openingGap_isGap (hbreak e _) h
  have hlineBreak : d.lineBreak = e.lineBreak := by
    obtain hd | hd := d.lineBreak_eq <;> obtain he | he := e.lineBreak_eq <;> simp_all
  rw [hlineBreak, hheader, List.append_cancel_left_eq, List.append_cancel_left_eq] at h
  simp only [Division.rest, List.cons.injEq, true_and] at h
  have hclosingGap := (eq_of_gap_append d.closingGap_isGap (head?_of_beginsBody d.body_begins) e.closingGap_isGap
    (head?_of_beginsBody e.body_begins) h).1
  exact Division.ext hopeningGap hlineBreak hheader hclosingGap hbody

end Division

theorem exists_of_split {content header body : String} (h : split content = some (header, body)) :
    ∃ d : Division, d.text = content ∧ d.header = header.toList ∧ d.body = body.toList := by
  unfold split at h
  simp only [Option.bind_eq_bind, Option.bind_eq_some_iff] at h
  obtain ⟨s, hopening, ⟨header', body'⟩, hlines, he⟩ := h
  obtain ⟨rfl, rfl⟩ : String.ofList header' = header ∧ String.ofList body' = body := by simpa using he
  obtain ⟨openingGap, lineBreak, hopeningGap, hbreak, hcontent⟩ := opening?_eq_some_iff.1 hopening
  obtain ⟨rest, rfl, hclosing, hends, hopen⟩ := exists_of_splitLines hlines
  obtain ⟨closingGap, hclosingGap, hbody, rfl⟩ := closing?_eq_some_iff.1 hclosing
  refine ⟨⟨openingGap, lineBreak, header', closingGap, body', hopeningGap, hbreak, hends.imp_left And.left,
    fun line hline => hopen line hline (.inl rfl), hclosingGap, hbody⟩, ?_, by simp, by simp⟩
  rw [Division.text, Division.rest, ← hcontent, String.ofList_toList]

theorem atLineEnd_of_split {content header body : String} (h : split content = some (header, body)) :
    atLineEnd body.toList = true := by
  obtain ⟨d, -, -, hbody⟩ := exists_of_split h
  exact atLineEnd_iff.2 (hbody ▸ d.body_begins)

/-- Joining header and body and taking them apart gives the header, with a line feed unless it is empty,
and the body. -/
theorem split_assemble {header body : String} (hb : atLineEnd body.toList = true)
    (h : ∀ line ∈ fields '\n' header.toList, ¬ IsClosingLine line) :
    split (assemble header body) = some (if header = "" then "" else header ++ "\n", body) := by
  have hbody := atLineEnd_iff.1 hb
  unfold assemble
  split
  next he =>
    let d : Division := ⟨[], ['\n'], [], [], body.toList, by simp, .inl rfl, .inl rfl, isOpen_nil, by simp, hbody⟩
    have htext : d.text = "---\n---" ++ body := String.toList_inj.1 (by simp [d, Division.text, Division.rest])
    rw [← htext, d.split_text]
    simp [d]
  next =>
    have hopen : ∀ line ∈ fields '\n' (header.toList ++ ['\n']), ¬ IsClosingLine line := by
      rw [Text.fields_append_sep]
      exact List.forall_mem_append.2 ⟨h, isOpen_nil⟩
    let d : Division := ⟨[], ['\n'], header.toList ++ ['\n'], [], body.toList, by simp, .inl rfl, .inr ⟨_, rfl⟩, hopen,
      by simp, hbody⟩
    have htext : d.text = "---\n" ++ header ++ "\n---" ++ body :=
      String.toList_inj.1 (by simp [d, Division.text, Division.rest])
    rw [← htext, d.split_text]
    simp [d]

/-- A note is split exactly where it has a division, and then there is only one; a header without closing lines and a
body are found again in the note that they are joined to. -/
theorem split_divides :
    (∀ content header body, split content = some (header, body) ↔
      ∃ d : Division, d.text = content ∧ d.header = header.toList ∧ d.body = body.toList) ∧
    (∀ d e : Division, d.text = e.text → d = e) ∧
    (∀ content, split content = none ↔ ¬ ∃ d : Division, d.text = content) ∧
    ∀ header body : String, (header = "" ∨ ∀ line ∈ fields '\n' header.toList, ¬ IsClosingLine line) →
      BeginsBody body.toList → split (assemble header body) = some (if header = "" then "" else header ++ "\n", body) := by
  have hsome : ∀ content header body, split content = some (header, body) ↔
      ∃ d : Division, d.text = content ∧ d.header = header.toList ∧ d.body = body.toList := by
    refine fun content header body => ⟨exists_of_split, ?_⟩
    rintro ⟨d, rfl, hheader, hbody⟩
    rw [d.split_text, hheader, hbody, String.ofList_toList, String.ofList_toList]
  refine ⟨hsome, fun d e => Division.text_injective, fun content => ?_, fun header body hheader hbody => ?_⟩
  · rw [Option.eq_none_iff_forall_ne_some]
    constructor
    · rintro hnone ⟨d, rfl⟩
      exact hnone _ d.split_text
    · rintro hnone ⟨header, body⟩ h
      obtain ⟨d, htext, -⟩ := exists_of_split h
      exact hnone ⟨d, htext⟩
  · refine split_assemble (atLineEnd_iff.2 hbody) ?_
    obtain rfl | hopen := hheader
    · exact isOpen_nil
    · exact hopen

/-- A header with a line of four dashes and one that is indented, and a body of a lone carriage return. -/
theorem split_divides_dashes :
    (∀ line ∈ fields '\n' "a: 1\n----\n ---".toList, ¬ IsClosingLine line) ∧ BeginsBody "\r".toList ∧
      split (assemble "a: 1\n----\n ---" "\r") = some ("a: 1\n----\n ---\n", "\r") := by
  have hnone : ∀ line ∈ fields '\n' "a: 1\n----\n ---".toList, closing? line = none ∧ line.takeWhile (· ≠ '\n') = line := by
    decide
  have hopen : ∀ line ∈ fields '\n' "a: 1\n----\n ---".toList, ¬ IsClosingLine line := fun line hline => by
    obtain ⟨hclosing, hwhole⟩ := hnone line hline
    exact hwhole ▸ closing?_eq_none_iff.1 hclosing
  have hbody : BeginsBody "\r".toList := .inr (.inl rfl)
  exact ⟨hopen, hbody, split_divides.2.2.2 _ _ (.inr hopen) hbody⟩

end NoteVault.Note
