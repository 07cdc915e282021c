import NoteVault.Proofs.Yaml.Scalar.Form
import NoteVault.Yaml.Token.Scan

/-!
The tokens that a content is to be read as, and the contents that are read as these tokens.
-/
namespace NoteVault.Yaml

/-- The name of a standard tag. -/
def Tag.shortName (tag : Tag) : List Char := (((Tag.names.find? (·.2 = tag)).map (·.1)).getD "").toList

theorem Form.tagText_eq {tag : Tag} (h : tag.isStandard = true) :
    Form.tagText tag = '!' :: '!' :: tag.shortName ∧ tag.shortName ≠ [] ∧ ∀ y ∈ tag.shortName, y.isAlpha = true := by
  rw [← List.all_eq_true]
  cases tag with
  | other text => exact absurd h (by simp [Tag.isStandard])
  | _ => decide

namespace Content

def tagKind (tag : Tag) : TokenKind := .tag ⟨some "!!", String.ofList tag.shortName⟩

def anchorKinds : Option Nat → List TokenKind
  | none => []
  | some n => [.anchor (String.ofList (anchorName n))]

/-- A scalar behind its tag, if that is written. -/
def scalarKinds (tag : Tag) (wish : Option Style) (text : List Char) : List TokenKind :=
  let style := Form.styleFor false tag wish text
  (if Form.showsTag style tag text then [tagKind tag] else []) ++ [.scalar (String.ofList text) style]

def keyKind (k : String) : TokenKind :=
  .scalar k (Form.styleFor (isSimpleKey k.toList) .str (wishOf k) k.toList)

mutual

/-- The tokens of a content behind its sign. -/
def kinds : Content → List TokenKind
  | aliasOf n => [.aliasName (String.ofList (anchorName n))]
  | scalar anchor tag wish text => anchorKinds anchor ++ scalarKinds tag wish text
  | sequence anchor items =>
    anchorKinds anchor ++
      if items.isEmpty then [.flowSequenceStart, .flowSequenceEnd]
      else .blockSequenceStart :: itemKinds items ++ [.blockEnd]
  | mapping anchor tag entries =>
    anchorKinds anchor ++ (if tag = .map then [] else [tagKind tag]) ++
      if entries.isEmpty then [.flowMappingStart, .flowMappingEnd]
      else .blockMappingStart :: entryKinds entries ++ [.blockEnd]

/-- The tokens of the items of a sequence. -/
def itemKinds : List Content → List TokenKind
  | [] => []
  | c :: rest => .blockEntry :: kinds c ++ itemKinds rest

/-- The tokens of the entries of a mapping. -/
def entryKinds : List (String × Content) → List TokenKind
  | [] => []
  | (k, c) :: rest => .key :: keyKind k :: .value :: kinds c ++ entryKinds rest

end

/-- A key is read back, and if it is simple, its written form is not too long for that. -/
structure IsKey (k : String) : Prop where
  readable : Form.IsReadable (Form.styleFor (isSimpleKey k.toList) .str (wishOf k) k.toList) k.toList
  short : isSimpleKey k.toList = true → (Form.scalar 2 true .str (wishOf k) k.toList).length ≤ 1024

mutual

/-- Every scalar and every key in the content is read back. -/
def IsSound : Content → Prop
  | aliasOf _ => True
  | scalar _ tag wish text => tag.isStandard = true ∧ Form.IsReadable (Form.styleFor false tag wish text) text
  | sequence _ items => AreSound items
  | mapping _ tag entries => tag.isStandard = true ∧ EntriesAreSound entries

def AreSound : List Content → Prop
  | [] => True
  | c :: rest => IsSound c ∧ AreSound rest

def EntriesAreSound : List (String × Content) → Prop
  | [] => True
  | (k, c) :: rest => IsKey k ∧ IsSound c ∧ EntriesAreSound rest

end

end Content

end NoteVault.Yaml
