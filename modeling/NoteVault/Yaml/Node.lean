import NoteVault.Yaml.Tag
import NoteVault.Yaml.Token.Scan

/-!
Nodes of a YAML document. An alias is replaced by the node that it names; nodes with an anchor are
marked, because what they stand for may be met again.
-/
namespace NoteVault.Yaml

/-- What all nodes have: a tag, the place where they begin, whether they carry an anchor, and whether
they stand for a collection around them. -/
structure NodeHead where
  tag : Tag
  mark : Mark
  anchored : Bool
  enclosing : Bool
  deriving DecidableEq, Repr

inductive Node where
  | scalar (head : NodeHead) (text : String)
  | sequence (head : NodeHead) (items : List Node)
  | mapping (head : NodeHead) (entries : List (Node × Node))

namespace Node

def head : Node → NodeHead
  | scalar h _ => h
  | sequence h _ => h
  | mapping h _ => h

def kind : Node → NodeKind
  | scalar .. => .scalar
  | sequence .. => .sequence
  | mapping .. => .mapping

/-- An anchor's name and its node; while the node is being read, one that stands for it. -/
structure Anchor where
  name : String
  node : Node

/-- The state of reading: tokens that are left, why they end, anchors, and the handles of tags. -/
structure Reader where
  tokens : List Token
  failure : Option Error
  anchors : List Anchor
  handles : List (String × String)

/-- Whether a block collection may begin, and whether a sequence may begin without indentation. -/
inductive Position where
  | flow | block | afterKey
  deriving DecidableEq

/-- Anchor and tag in front of a node, and the place where the first of them begins. -/
structure Properties where
  anchor : Option String
  tag : Option (TagText × Mark)
  start : Option Mark

namespace Reader

/-- The next token, or the fault that keeps it from being read. -/
def peek (s : Reader) : Except Error Token :=
  match s.tokens with
  | t :: _ => .ok t
  | [] => .error (s.failure.getD (.fault ⟨none, .endOfText, ⟨0, 0, 0⟩⟩))

/-- Takes the next token. -/
def next (s : Reader) : Reader := { s with tokens := s.tokens.tail }

def refuse {α : Type} (context : Option (Context × Option Mark)) (problem : Problem) (mark : Mark) :
    Except Error α :=
  .error (.fault ⟨context, problem, mark⟩)

/-- More steps than the tokens allow; `fuel` rules it out. -/
def exhausted {α : Type} : Except Error α := refuse none .endOfText ⟨0, 0, 0⟩

/-- An anchor and a tag, in either order. -/
def properties (s : Reader) : Except Error (Properties × Reader) := do
  let t ← s.peek
  match t.kind with
  | .anchor name =>
    let u ← s.next.peek
    match u.kind with
    | .tag tag => return (⟨some name, some (tag, u.start), some t.start⟩, s.next.next)
    | _ => return (⟨some name, none, some t.start⟩, s.next)
  | .tag tag =>
    let u ← s.next.peek
    match u.kind with
    | .anchor name => return (⟨some name, some (tag, t.start), some t.start⟩, s.next.next)
    | _ => return (⟨none, some (tag, t.start), some t.start⟩, s.next)
  | _ => return (⟨none, none, none⟩, s)

/-- The full text of a tag. -/
def tagText (s : Reader) (start : Option Mark) : Option (TagText × Mark) → Except Error (Option String)
  | none => .ok none
  | some (⟨none, suffix⟩, _) => .ok (some suffix)
  | some (⟨some handle, suffix⟩, mark) =>
    match s.handles.lookup handle with
    | some beginning => .ok (some (beginning ++ suffix))
    | none => refuse (some (.node, start)) (.unknownHandle handle) mark

/-- An anchor's name may be given once. -/
def reserveAnchor (s : Reader) (mark : Mark) : Option String → Except Error Unit
  | none => .ok ()
  | some name =>
    match s.anchors.find? (·.name = name) with
    | none => .ok ()
    | some first => refuse (some (.firstAnchor name, some first.node.head.mark)) .secondAnchor mark

/-- Enters an anchor, replacing the entry of its name. -/
def setAnchor (s : Reader) (node : Node) : Option String → Reader
  | none => s
  | some name => { s with anchors := ⟨name, node⟩ :: s.anchors.filter (·.name ≠ name) }

/-- The node that an alias names. -/
def lookupAlias (s : Reader) (name : String) (mark : Mark) : Except Error Node :=
  match s.anchors.find? (·.name = name) with
  | none => refuse none (.unknownAlias name) mark
  | some a => .ok a.node

/-- A tag that says nothing counts as no tag. -/
def specific (tag : Option String) : Option Tag :=
  match tag with
  | some "!" => none
  | some text => some (.ofText text)
  | none => none

/-- The tag of a scalar: given, found from a plain text, or that of texts. -/
def scalarTag (tag : Option String) (text : String) (style : Style) : Tag :=
  match specific tag with
  | some t => t
  | none => if tag.isSome || style = .plain then .ofPlain text else .str

/-- A scalar that is not written. -/
def empty (mark : Mark) : Node := scalar ⟨.null, mark, false, false⟩ ""

mutual

/-- The node that begins at the next token. -/
def node : Nat → Position → Reader → Except Error (Node × Reader)
  | 0, _, _ => exhausted
  | fuel + 1, position, s => do
    let t ← s.peek
    match t.kind with
    | .aliasName name => return (← s.lookupAlias name t.start, s.next)
    | _ =>
      let (p, s) ← s.properties
      let tag ← s.tagText p.start p.tag
      let t ← s.peek
      let mark := p.start.getD t.start
      let head := fun (default : Tag) => (⟨(specific tag).getD default, mark, p.anchor.isSome, false⟩ : NodeHead)
      let single := fun (text : String) (style : Style) (s : Reader) => do
        s.reserveAnchor mark p.anchor
        let node := scalar (head (scalarTag tag text style)) text
        return (node, s.setAnchor node p.anchor)
      let collect := fun (whole : Node) (read : Reader → Except Error (Node × Reader)) => do
        s.reserveAnchor mark p.anchor
        let (node, s) ← read (s.setAnchor whole p.anchor)
        return (node, s.setAnchor node p.anchor)
      let items := fun (read : Reader → Except Error (List Node × Reader)) =>
        collect (sequence { head .seq with enclosing := true } []) fun s => do
          let (items, s) ← read s
          return (sequence (head .seq) items, s)
      let entries := fun (read : Reader → Except Error (List (Node × Node) × Reader)) =>
        collect (mapping { head .map with enclosing := true } []) fun s => do
          let (entries, s) ← read s
          return (mapping (head .map) entries, s)
      match t.kind, position with
      | .blockEntry, .afterKey => items (looseItems fuel)
      | .scalar text style, _ => single text style s.next
      | .flowSequenceStart, _ => items fun s => flowItems fuel t.start true s.next
      | .flowMappingStart, _ => entries fun s => flowEntries fuel t.start true s.next
      | .blockSequenceStart, .block | .blockSequenceStart, .afterKey =>
        items fun s => blockItems fuel t.start s.next
      | .blockMappingStart, .block | .blockMappingStart, .afterKey =>
        entries fun s => blockEntries fuel t.start s.next
      | kind, _ =>
        if p.anchor.isSome || p.tag.isSome then
          single "" .plain s
        else
          let context := if position = .flow then Context.flowNode else .blockNode
          refuse (some (context, some mark)) (.noContent kind.name) t.start

/-- Entries of an indented sequence, up to its end. -/
def blockItems : Nat → Mark → Reader → Except Error (List Node × Reader)
  | 0, _, _ => exhausted
  | fuel + 1, start, s => do
    let t ← s.peek
    match t.kind with
    | .blockEntry =>
      let u ← s.next.peek
      let (item, s) ← match u.kind with
        | .blockEntry | .blockEnd => pure (empty t.stop, s.next)
        | _ => node fuel .block s.next
      let (items, s) ← blockItems fuel start s
      return (item :: items, s)
    | .blockEnd => return ([], s.next)
    | kind => refuse (some (.blockCollection, some start)) (.noBlockEnd kind.name) t.start

/-- Entries of a sequence that is not indented; it ends with the first token that is no entry. -/
def looseItems : Nat → Reader → Except Error (List Node × Reader)
  | 0, _ => exhausted
  | fuel + 1, s => do
    let t ← s.peek
    match t.kind with
    | .blockEntry =>
      let u ← s.next.peek
      let (item, s) ← match u.kind with
        | .blockEntry | .key | .value | .blockEnd => pure (empty t.stop, s.next)
        | _ => node fuel .block s.next
      let (items, s) ← looseItems fuel s
      return (item :: items, s)
    | _ => return ([], s)

/-- Entries of an indented mapping, up to its end. -/
def blockEntries : Nat → Mark → Reader → Except Error (List (Node × Node) × Reader)
  | 0, _, _ => exhausted
  | fuel + 1, start, s => do
    let t ← s.peek
    match t.kind with
    | .key =>
      let (key, s) ← blockPart fuel t s.next
      let v ← s.peek
      let (value, s) ← match v.kind with
        | .value => blockPart fuel v s.next
        | _ => pure (empty v.start, s)
      let (entries, s) ← blockEntries fuel start s
      return ((key, value) :: entries, s)
    | .blockEnd => return ([], s.next)
    | kind => refuse (some (.blockMapping, some start)) (.noBlockEnd kind.name) t.start

/-- The key or the value behind its sign, which may be missing. -/
def blockPart : Nat → Token → Reader → Except Error (Node × Reader)
  | 0, _, _ => exhausted
  | fuel + 1, sign, s => do
    let t ← s.peek
    match t.kind with
    | .key | .value | .blockEnd => return (empty sign.stop, s)
    | _ => node fuel .afterKey s

/-- Entries of a sequence in brackets, up to the closing one. -/
def flowItems : Nat → Mark → Bool → Reader → Except Error (List Node × Reader)
  | 0, _, _, _ => exhausted
  | fuel + 1, start, first, s => do
    let t ← s.peek
    match t.kind with
    | .flowSequenceEnd => return ([], s.next)
    | kind =>
      let s ← match first, kind with
        | true, _ => pure s
        | false, .flowEntry => pure s.next
        | false, _ => refuse (some (.flowSequence, some start)) (.noFlowSequenceEnd kind.name) t.start
      let u ← s.peek
      match u.kind with
      | .flowSequenceEnd => return ([], s.next)
      | _ =>
        let (item, s) ← match u.kind with
          | .key => flowPair fuel u s.next
          | _ => node fuel .flow s
        let (items, s) ← flowItems fuel start false s
        return (item :: items, s)

/-- A mapping of one entry that stands in a sequence without brackets of its own. -/
def flowPair : Nat → Token → Reader → Except Error (Node × Reader)
  | 0, _, _ => exhausted
  | fuel + 1, sign, s => do
    let t ← s.peek
    let (key, s) ← match t.kind with
      | .value | .flowEntry | .flowSequenceEnd => pure (empty sign.stop, s)
      | _ => node fuel .flow s
    let v ← s.peek
    let (value, s) ← match v.kind with
      | .value => do
        let w ← s.next.peek
        match w.kind with
        | .flowEntry | .flowSequenceEnd => pure (empty v.stop, s.next)
        | _ => node fuel .flow s.next
      | _ => pure (empty v.start, s)
    return (mapping ⟨.map, sign.start, false, false⟩ [(key, value)], s)

/-- Entries of a mapping in braces, up to the closing one. -/
def flowEntries : Nat → Mark → Bool → Reader → Except Error (List (Node × Node) × Reader)
  | 0, _, _, _ => exhausted
  | fuel + 1, start, first, s => do
    let t ← s.peek
    match t.kind with
    | .flowMappingEnd => return ([], s.next)
    | kind =>
      let s ← match first, kind with
        | true, _ => pure s
        | false, .flowEntry => pure s.next
        | false, _ => refuse (some (.flowMapping, some start)) (.noFlowMappingEnd kind.name) t.start
      let u ← s.peek
      match u.kind with
      | .flowMappingEnd => return ([], s.next)
      | .key =>
        let k ← s.next.peek
        let (key, s) ← match k.kind with
          | .value | .flowEntry | .flowMappingEnd => pure (empty u.stop, s.next)
          | _ => node fuel .flow s.next
        let v ← s.peek
        let (value, s) ← match v.kind with
          | .value => do
            let w ← s.next.peek
            match w.kind with
            | .flowEntry | .flowMappingEnd => pure (empty v.stop, s.next)
            | _ => node fuel .flow s.next
          | _ => pure (empty v.start, s)
        let (entries, s) ← flowEntries fuel start false s
        return ((key, value) :: entries, s)
      | _ =>
        let (key, s) ← node fuel .flow s
        let v ← s.peek
        let (entries, s) ← flowEntries fuel start false s
        return ((key, empty v.start) :: entries, s)

end

/-- Handles that need no directive. -/
def defaultHandles : List (String × String) := [("!", "!"), ("!!", Tag.standard)]

/-- Directives in front of a document: whether a version was given, and handles of tags. -/
def directives : Nat → Bool → List (String × String) → Reader →
    Except Error (List (String × String) × Reader)
  | 0, _, handles, s => .ok (handles, s)
  | fuel + 1, versioned, handles, s => do
    let t ← s.peek
    match t.kind with
    | .directive (.version major _) =>
      if versioned then refuse none .duplicateVersion t.start
      else if major ≠ 1 then refuse none .otherVersion t.start
      else directives fuel true handles s.next
    | .directive (.tag handle text) =>
      if (handles.lookup handle).isSome then refuse none (.duplicateHandle handle) t.start
      else directives fuel versioned (handles ++ [(handle, text)]) s.next
    | .directive (.other _) => directives fuel versioned handles s.next
    | _ => return (handles ++ defaultHandles.filter fun (h, _) => (handles.lookup h).isNone, s)

/-- Passes over the ends of documents. -/
def skipEnds : Nat → Reader → Except Error Reader
  | 0, s => .ok s
  | fuel + 1, s => do
    let t ← s.peek
    match t.kind with
    | .documentEnd => skipEnds fuel s.next
    | _ => return s

/-- A document that begins with its mark, if the text does not end before: the place where it begins. -/
def documentStart (s : Reader) : Except Error (Option Mark × Reader) := do
  let s ← s.skipEnds s.tokens.length
  let t ← s.peek
  match t.kind with
  | .streamEnd => return (none, s)
  | _ =>
    let (handles, s) ← s.directives (s.tokens.length + 1) false []
    let u ← s.peek
    match u.kind with
    | .documentStart => return (some t.start, { s.next with handles := handles })
    | kind => refuse none (.noDocumentStart kind.name) u.start

/-- Enough steps for the tokens that are left. -/
def fuel (s : Reader) : Nat := 3 * s.tokens.length + 3

/-- What a document holds behind its mark. -/
def content (s : Reader) : Except Error (Node × Reader) := do
  let t ← s.peek
  match t.kind with
  | .directive _ | .documentStart | .documentEnd | .streamEnd => return (empty t.start, s)
  | _ => node s.fuel .block s

/-- The first document of a text, if there is one. -/
def firstDocument (s : Reader) : Except Error (Option Node × Reader) := do
  let t ← s.peek
  match t.kind with
  | .directive _ | .documentStart | .streamEnd =>
    match ← s.documentStart with
    | (none, s) => return (none, s)
    | (some _, s) =>
      let (root, s) ← s.content
      return (some root, s)
  | _ =>
    let (root, s) ← node s.fuel .block s
    return (some root, s)

/-- The one document of a text, if there is one. -/
def document (s : Reader) : Except Error (Option Node) := do
  match ← s.firstDocument with
  | (none, _) => return none
  | (some root, s) =>
    let t ← s.peek
    let s := match t.kind with
      | .documentEnd => s.next
      | _ => s
    match ← s.documentStart with
    | (none, _) => return some root
    | (some mark, _) => refuse (some (.oneDocument, some root.head.mark)) .anotherDocument mark

end Reader

/-- The root node of a text, none for an empty text. -/
def ofString? (text : String) : Except Error (Option Node) :=
  let ts := TokenList.ofString text
  Reader.document ⟨ts.tokens, ts.failure, [], Reader.defaultHandles⟩

end Node

end NoteVault.Yaml
