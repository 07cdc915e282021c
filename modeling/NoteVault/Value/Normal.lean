import NoteVault.Value
import NoteVault.WikiLink

/-!
Values as a note's readers want them: dates as texts, links as their targets. Both walk through lists
and mappings, which become new objects, and leave everything else alone.
-/
namespace NoteVault.Value

mutual

/-- Dates and points in time become the text of the day. -/
def datesAsText : Value → Value
  | date d => str d.text
  | datetime t => str t.date.text
  | list items => list (datesAsTextList items)
  | map entries => map (datesAsTextEntries entries)
  | shared _ (date d) => str d.text
  | shared _ (datetime t) => str t.date.text
  | shared _ (list items) => list (datesAsTextList items)
  | shared _ (map entries) => map (datesAsTextEntries entries)
  | v => v

def datesAsTextList : List Value → List Value
  | [] => []
  | v :: rest => datesAsText v :: datesAsTextList rest

def datesAsTextEntries : List (String × Value) → List (String × Value)
  | [] => []
  | (k, v) :: rest => (k, datesAsText v) :: datesAsTextEntries rest

end

mutual

/-- Texts that are links become their targets. -/
def linksAsText : Value → Value
  | str s => str (WikiLink.unwrap s)
  | list items => list (linksAsTextList items)
  | map entries => map (linksAsTextEntries entries)
  | shared _ (list items) => list (linksAsTextList items)
  | shared _ (map entries) => map (linksAsTextEntries entries)
  | v => v

def linksAsTextList : List Value → List Value
  | [] => []
  | v :: rest => linksAsText v :: linksAsTextList rest

def linksAsTextEntries : List (String × Value) → List (String × Value)
  | [] => []
  | (k, v) :: rest => (k, linksAsText v) :: linksAsTextEntries rest

end

/-- Dates as texts, then links as their targets. -/
def normal (v : Value) : Value := v.datesAsText.linksAsText

/-- The entries of a mapping, each in normal form. -/
def normalEntries (m : Mapping) : Mapping := linksAsTextEntries (datesAsTextEntries m)

@[simp] theorem datesAsTextList_eq_map (items : List Value) :
    datesAsTextList items = items.map datesAsText := by
  induction items with
  | nil => rfl
  | cons v rest ih => simp [datesAsTextList, ih]

@[simp] theorem datesAsTextEntries_eq_map (entries : List (String × Value)) :
    datesAsTextEntries entries = entries.map fun (k, v) => (k, datesAsText v) := by
  induction entries with
  | nil => rfl
  | cons e rest ih => simp [datesAsTextEntries, ih]

@[simp] theorem linksAsTextList_eq_map (items : List Value) :
    linksAsTextList items = items.map linksAsText := by
  induction items with
  | nil => rfl
  | cons v rest ih => simp [linksAsTextList, ih]

@[simp] theorem linksAsTextEntries_eq_map (entries : List (String × Value)) :
    linksAsTextEntries entries = entries.map fun (k, v) => (k, linksAsText v) := by
  induction entries with
  | nil => rfl
  | cons e rest ih => simp [linksAsTextEntries, ih]

end NoteVault.Value
