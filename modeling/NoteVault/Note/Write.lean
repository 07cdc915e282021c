import NoteVault.Note.Split
import NoteVault.Value.Digits
import NoteVault.Yaml.Block

/-!
Front matter as a header. Texts in reference fields are written as links where a link reads back as the
text, and white space at the ends of the header is dropped.
-/
namespace NoteVault

namespace Value

/-- A text as a link, if the link reads back as the text. -/
def asLink : Value → Value
  | str s =>
    let link := WikiLink.wrap s
    if s ≠ "" && WikiLink.unwrap link = s then str link else str s
  | v => v

/-- A reference, or a list of them, as links. -/
def asLinks : Value → Value
  | list items => list (items.map asLink)
  | shared _ (list items) => list (items.map asLink)
  | v => v.asLink

end Value

namespace Mapping

/-- Turns the value of a key that is there into another one. -/
def adjust (m : Mapping) (key : String) (f : Value → Value) : Mapping :=
  m.map fun (k, v) => if k == key then (k, f v) else (k, v)

/-- Reference fields as links. -/
def linkReferences (m : Mapping) (fields : List String) : Mapping :=
  fields.foldl (fun m name => adjust m name Value.asLinks) m

@[simp] theorem keys_adjust (m : Mapping) (key : String) (f : Value → Value) :
    (adjust m key f).keys = m.keys := by
  simp only [Dictionary.keys, adjust, List.map_map]
  apply List.map_congr_left
  intro e _
  simp only [Function.comp]
  split <;> rfl

@[simp] theorem keys_linkReferences (m : Mapping) (fields : List String) :
    (linkReferences m fields).keys = m.keys := by
  induction fields generalizing m with
  | nil => rfl
  | cons name rest ih => simp only [linkReferences, List.foldl_cons] at ih ⊢; rw [ih, keys_adjust]

end Mapping

namespace Note

/-- The header's text for a mapping whose reference fields are links already. -/
def headerText (m : Mapping) : String :=
  if m.isEmpty then "" else
    Text.trim (String.ofList (Yaml.Content.writeAll (Yaml.Content.ofMapping m)))

/-- Front matter as a header, without the lines of dashes. -/
def stringify (m : Mapping) (references : List String) : Except WriteError String :=
  let m := m.linkReferences references
  if Value.entriesHaveLongInteger m then .error .longInteger else .ok (headerText m)

end Note

end NoteVault
