import NoteVault.Proofs.Note.Parse
import NoteVault.Proofs.Note.Split
import NoteVault.Proofs.Text.Trim
import NoteVault.Proofs.Yaml.Lines
import NoteVault.Repair

/-!
The body of a note. No line of a header that is written is a closing line, so the body that is put behind
a new header is found again, character by character.
-/
namespace NoteVault

namespace Value

open Yaml Content

theorem isStandard_withAnchor (n : Nat) (c : Content) : (c.withAnchor n).isStandard = c.isStandard := by
  cases c <;> rfl

theorem entriesAreStandard_set (members : List String) :
    entriesAreStandard (members.map fun s => (s, Content.scalar none .null none "null".toList)) = true := by
  induction members with
  | nil => rfl
  | cons s rest ih => simpa [entriesAreStandard, isStandard, Tag.isStandard] using ih

mutual

theorem isStandard_ofValue (repeated written : List Value) :
    ∀ v : Value, (ofValue repeated written v).1.isStandard = true
  | .null | .bool _ | .int _ | .float _ | .str _ | .bytes _ | .date _ | .datetime _ => rfl
  | .list items => areStandard_ofList repeated written items
  | .tuple items => areStandard_ofList repeated written items
  | .map entries => by
    simpa [ofValue, isStandard, Tag.isStandard] using areStandard_ofEntries repeated written entries
  | .set members => by
    simpa [ofValue, isStandard, Tag.isStandard] using entriesAreStandard_set members
  | .shared place v => by
    unfold ofValue
    split
    · dsimp only
      split
      · rfl
      · exact (isStandard_withAnchor _ _).trans (isStandard_ofValue repeated (.shared place v :: written) v)
    · exact isStandard_ofValue repeated written v

theorem areStandard_ofList (repeated written : List Value) :
    ∀ items : List Value, areStandard (ofList repeated written items).1 = true
  | [] => rfl
  | v :: rest => by
    simp only [ofList, areStandard, Bool.and_eq_true]
    exact ⟨isStandard_ofValue repeated written v, areStandard_ofList repeated _ rest⟩

theorem areStandard_ofEntries (repeated written : List Value) :
    ∀ entries : List (String × Value), entriesAreStandard (ofEntries repeated written entries).1 = true
  | [] => rfl
  | (_, v) :: rest => by
    simp only [ofEntries, entriesAreStandard, Bool.and_eq_true]
    exact ⟨isStandard_ofValue repeated written v, areStandard_ofEntries repeated _ rest⟩

end

end Value

namespace Note

open Text (fields)

/-- White space and dashes. -/
def isRule (c : Char) : Bool := Text.isBlank c || c = '-'

theorem isRule_of_isBlank {c : Char} (h : Text.isBlank c = true) : isRule c = true := by
  rw [isRule, h, Bool.true_or]

theorem IsClosingLine.isRule {line : List Char} (h : IsClosingLine line) : ∀ c ∈ line, isRule c = true := by
  obtain ⟨gap, hgap, hline⟩ := h
  have hblank : ∀ c ∈ gap, Note.isRule c = true := fun c hc => by
    have := hgap c hc
    simp only [isGap, Bool.or_eq_true, decide_eq_true_eq] at this
    rcases this with rfl | rfl <;> decide
  have hdash : Note.isRule '-' = true := by decide
  have hreturn : Note.isRule '\r' = true := by decide
  rcases hline with rfl | rfl
  · simpa [hdash] using hblank
  · simpa [hdash, hreturn, or_imp, forall_and] using hblank

/-- A line of white space and dashes holds no mark. -/
theorem not_isMarked {t : List Char} (h : ∀ c ∈ t, isRule c = true) : ¬ Yaml.Content.IsMarked t := by
  rintro (hm | hm) <;> exact absurd (h _ hm) (by decide)

/-- Of a text in front of a line only what is on the same line counts. -/
theorem forall_takeWhile_append {p : Char → Bool} {a t : List Char} (ha : ∀ c ∈ a, p c = true)
    (ht : ∀ c ∈ t.takeWhile (· ≠ '\n'), p c = true) : ∀ c ∈ (a ++ t).takeWhile (· ≠ '\n'), p c = true := by
  intro c hc
  by_cases hna : '\n' ∈ a
  · obtain ⟨a₁, a₂, rfl⟩ := List.append_of_mem hna
    rw [List.append_assoc, List.cons_append, Text.takeWhile_append_sep] at hc
    exact ha c (List.mem_append_left _ ((List.takeWhile_sublist _).mem hc))
  · rw [Text.takeWhile_append_of_not_mem hna] at hc
    exact (List.mem_append.1 hc).elim (ha c) (ht c)

/-- No line of a text that is trimmed is a closing line, if that holds of the lines before trimming for
the reasons that `HasKeyLines` gives. -/
theorem no_closing_line_trimBy {s : List Char} (h : Yaml.Content.HasKeyLines s) {line : List Char}
    (hl : line ∈ fields '\n' (Text.trimBy Text.isBlank s)) : ¬ IsClosingLine line := by
  intro hc
  obtain ⟨a, b, hs, ha, hb⟩ := Text.exists_trimBy (p := Text.isBlank) s
  obtain ⟨x, y, ht, hx, hy⟩ := Text.exists_of_mem_fields hl
  have hn : '\n' ∉ line := Text.not_mem_of_mem_fields hl
  -- What stands behind the line, up to the end of its line before trimming, is white space.
  have hbehind : ∀ c ∈ (y ++ b).takeWhile (· ≠ '\n'), Text.isBlank c = true := by
    obtain rfl | ⟨y', rfl⟩ := hy
    · exact fun c hm => hb c ((List.takeWhile_sublist _).mem hm)
    · simp
  have hrule : ∀ c ∈ (line ++ (y ++ b)).takeWhile (· ≠ '\n'), isRule c = true :=
    forall_takeWhile_append hc.isRule fun c hm => isRule_of_isBlank (hbehind c hm)
  rw [ht] at hs
  obtain rfl | ⟨x', rfl⟩ := hx
  · -- The line comes first: all in front of it is white space.
    refine not_isMarked ?_ h.first_marked
    rw [hs, List.nil_append, List.append_assoc, List.append_assoc]
    exact forall_takeWhile_append (fun c hm => isRule_of_isBlank (ha c hm)) hrule
  · have hmem : (line ++ (y ++ b)).takeWhile (· ≠ '\n') ∈ fields '\n' s := by
      rw [hs, show a ++ (x' ++ ['\n'] ++ line ++ y) ++ b = (a ++ x') ++ '\n' :: (line ++ (y ++ b)) by simp,
        Text.fields_append_sep, Text.fields_eq_cons '\n' (line ++ (y ++ b))]
      simp
    obtain hm | hm := h.marked_or_no_dash _ hmem
    · exact not_isMarked hrule hm
    · rw [Text.takeWhile_append_of_not_mem hn] at hm
      obtain ⟨gap, -, rfl | rfl⟩ := hc <;> simp at hm

/-- No line of a header that is written is a closing line. -/
theorem no_closing_line_stringify {m : Mapping} {references : List String} {header : String}
    (h : stringify m references = .ok header) : ∀ line ∈ fields '\n' header.toList, ¬ IsClosingLine line := by
  unfold stringify at h
  dsimp only at h
  split at h
  · cases h
  · obtain rfl := Except.ok.inj h
    unfold headerText
    split
    · rintro line hl ⟨gap, -, rfl | rfl⟩ <;> simp [fields] at hl
    next hne =>
      have hkeys := Yaml.Content.hasKeyLines_writeAll
        (Value.areStandard_ofEntries (Yaml.Content.censusEntries ⟨[], []⟩ (m.linkReferences references)).repeated []
          (m.linkReferences references)) (by
          intro he
          cases hm : m.linkReferences references with
          | nil => simp [hm] at hne
          | cons e rest => simp [hm, Yaml.Content.ofEntries] at he)
      intro line hl
      refine no_closing_line_trimBy hkeys ?_
      simpa [Text.trim, Yaml.Content.ofMapping] using hl

/-- A new header leaves the body where it is found. -/
theorem split_withFrontMatter {content body : String} {m : Mapping} {references : List String} {rev : Revision}
    (hb : atLineEnd body.toList = true) (h : withFrontMatter content body m references = .ok rev) :
    ∃ header, split rev.content = some (header, body) := by
  unfold withFrontMatter at h
  cases hs : stringify m references with
  | error e => simp [hs, Except.mapError, bind, Except.bind] at h
  | ok header =>
    obtain rfl : (⟨assemble header body, assemble header body ≠ content⟩ : Revision) = rev := by
      simpa [hs, Except.mapError, bind, Except.bind, pure, Except.pure] using h
    exact ⟨_, split_assemble hb (no_closing_line_stringify hs)⟩

theorem split_repair {p : RepairPlan} {r : Registry} {config : Config} {content : String} {note : Note}
    {m : Mapping} {rev : Revision} (h : parse content = .ok note) (hm : note.data = some m)
    (hr : repair p r config content = .ok rev) : ∃ header, split rev.content = some (header, note.body) := by
  obtain ⟨_, _, hsplit, -⟩ := exists_of_parse h hm
  have hb := atLineEnd_of_split hsplit
  simp only [repair, h, hm, Except.mapError, bind, Except.bind] at hr
  exact split_withFrontMatter hb hr

theorem split_migrate {r : Registry} {source target content : String} {note : Note}
    {m : Mapping} {rev : Revision} (h : parse content = .ok note) (hm : note.data = some m)
    (hr : migrate r source target content = .ok rev) :
    ∃ header, split rev.content = some (header, note.body) := by
  obtain ⟨_, _, hs, -⟩ := exists_of_parse h hm
  simp only [migrate, h, hm, Except.mapError, bind, Except.bind] at hr
  split at hr
  · exact split_withFrontMatter (atLineEnd_of_split hs) hr
  · cases hr
    exact ⟨_, hs⟩

/-- Whatever a repair or a change of type does to the front matter, the body of the note is found behind
the new header as it was, and no line of any header that is written is a closing line. -/
theorem body_survives :
    (∀ content note m, parse content = .ok note → note.data = some m →
      (∀ p r config rev, repair p r config content = .ok rev →
        ∃ header, split rev.content = some (header, note.body)) ∧
      ∀ r source target rev, migrate r source target content = .ok rev →
        ∃ header, split rev.content = some (header, note.body)) ∧
    ∀ m references header, stringify m references = .ok header →
      ∀ line ∈ fields '\n' header.toList, ¬ IsClosingLine line :=
  ⟨fun _ _ _ h hm => ⟨fun _ _ _ _ hr => split_repair h hm hr, fun _ _ _ _ hr => split_migrate h hm hr⟩,
    fun _ _ _ hs => no_closing_line_stringify hs⟩

/-- A repair that writes a text with lines of dashes, in a note whose body begins with a carriage return. -/
theorem body_survives_dashes :
    ∃ note m rev header, parse "---\ntags: ---\n--- \r\n---" = .ok note ∧ note.data = some m ∧
      repair ⟨true, [fun m => m.put "tags" (.str "a\n---\n---")], []⟩ .empty .default
        "---\ntags: ---\n--- \r\n---" = .ok rev ∧ split rev.content = some (header, "\r\n---") := by
  have hp : parse "---\ntags: ---\n--- \r\n---" =
      .ok ⟨some [("tags", .str "---")], "\r\n---", [], "tags: ---\n"⟩ := by decide +kernel
  have hr : repair ⟨true, [fun m => m.put "tags" (.str "a\n---\n---")], []⟩ .empty .default
      "---\ntags: ---\n--- \r\n---" =
      .ok ⟨"---\ntags:\n  - 'a\n\n    ---\n\n    ---'\n---\r\n---", true⟩ := by decide +kernel
  obtain ⟨header, hs⟩ := (body_survives.1 _ _ _ hp rfl).1 _ _ _ _ hr
  exact ⟨_, _, _, header, hp, rfl, hr, hs⟩

end Note
end NoteVault
