import NoteVault.Text.CaseTable

/-!
Lower and upper case of a text. A letter may become several characters, and a capital sigma becomes
the final form at the end of a word.
-/
namespace NoteVault.Text

/-- The image of a character under the runs, itself when no run holds it. -/
def mapByRuns (runs : List CaseRun) (c : Char) : Char :=
  ((runs.findSome? (·.image? c.toNat)).map Char.ofNat).getD c

/-- The lower case of one character, outside of any word. -/
def lowerChar (c : Char) : List Char :=
  if c.toNat < 128 then [c.toLower] else
    match lowerSequences.lookup c.toNat with
    | some cs => cs.map Char.ofNat
    | none => [mapByRuns lowerRuns c]

/-- The upper case of one character. -/
def upperChar (c : Char) : List Char :=
  if c.toNat < 128 then [c.toUpper] else
    match upperSequences.lookup c.toNat with
    | some cs => cs.map Char.ofNat
    | none => [mapByRuns upperRuns c]

def isCaseIgnorable (c : Char) : Bool := caseIgnorableRanges.has c

def isCased (c : Char) : Bool := casedRanges.has c

/-- The next character that counts is a letter with case. -/
def startsCased (s : List Char) : Bool :=
  match s.dropWhile isCaseIgnorable with
  | [] => false
  | c :: _ => isCased c

/-- Lower case of the rest of a text; the flag says whether the last character that counts was a letter
with case. -/
def lowerFrom (afterCased : Bool) : List Char → List Char
  | [] => []
  | c :: rest =>
    let image :=
      if c = 'Σ' then [if afterCased && !startsCased rest then 'ς' else 'σ'] else lowerChar c
    image ++ lowerFrom (if isCaseIgnorable c then afterCased else isCased c) rest

/-- The text in lower case. -/
def lower (s : String) : String := String.ofList (lowerFrom false s.toList)

/-- The text in upper case. -/
def upper (s : String) : String := String.ofList (s.toList.flatMap upperChar)

example : lower "ΑΣ ΣΑ" = "ας σα" := by decide +kernel

example : upper "ß" = "SS" ∧ lower "İ" = "i̇" := by decide +kernel

end NoteVault.Text
