import NoteVault.Index

/-!
What is wrong between the notes of a vault: identities that several notes have, and references that lead
nowhere.
-/
namespace NoteVault

namespace Issue

/-- An identity is also that of other notes. -/
def idRepeated (identity : String) (others : List String) : Issue :=
  error .duplicateId ("Duplicate id \"" ++ identity ++ "\" also found in: " ++ ", ".intercalate others) []

/-- A reference names no note. -/
def targetUnknown (e : Reference) : Issue :=
  error .missingReference ("Reference to unknown id \"" ++ e.target ++ "\" in field \"" ++ e.field ++ "\"") [e.field]

end Issue

namespace VaultIndex

/-- For every identity the notes that have it. -/
def holders (i : VaultIndex) : Dictionary (List String) :=
  i.notes.foldl (fun d (path, n) =>
    match n.id with
    | some identity => d.push identity path
    | none => d) []

/-- The issue of each of several notes with one identity. -/
def duplicateIssues (i : VaultIndex) : List (String × Issue) :=
  i.holders.flatMap fun (identity, paths) =>
    if paths.length < 2 then [] else
      paths.map fun path => (path, Issue.idRepeated identity (paths.filter (· ≠ path)))

/-- The issue of each reference that leads nowhere. -/
def danglingIssues (i : VaultIndex) : List (String × Issue) :=
  (i.references.filter (!i.resolves ·)).map fun e => (e.source, Issue.targetUnknown e)

/-- Issues between notes, by note. -/
def conflicts (i : VaultIndex) : Dictionary (List Issue) :=
  (i.duplicateIssues ++ i.danglingIssues).foldl (fun d (path, issue) => d.push path issue) []

end VaultIndex

end NoteVault
