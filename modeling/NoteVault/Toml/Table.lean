import NoteVault.Toml.Fault

/-!
Tables under construction. A table may be opened once, an inline value is closed for good, and a dotted
key may only pass through tables that have no header of their own.
-/
namespace NoteVault.Toml

/-- Works on the table at the end of a path. Missing tables on the way are made, and an array on the way
stands for its last table if `throughArrays` is set. -/
def within (throughArrays : Bool) (m : Mapping) (path : Key) (f : Mapping → Except Problem Mapping) :
    Except Problem Mapping :=
  match path with
  | [] => f m
  | name :: rest =>
    match m.get? name with
    | none => (within throughArrays [] rest f).map fun t => m.put name (.map t)
    | some (.map inner) => (within throughArrays inner rest f).map fun t => m.put name (.map t)
    | some (.list items) =>
      match throughArrays, items.getLast? with
      | true, some (.map inner) =>
        (within throughArrays inner rest f).map fun t => m.put name (.list (items.dropLast ++ [.map t]))
      | _, _ => .error .overwritten
    | some _ => .error .overwritten

/-- Tables that may not be opened again, values that may not be changed, and dotted tables that join the
former when the next header comes. -/
structure Marks where
  opened : List Key
  closed : List Key
  pending : List Key

namespace Marks

def empty : Marks := ⟨[], [], []⟩

def isOpened (k : Marks) (key : Key) : Bool := k.opened.contains key

/-- The value or one around it is closed. -/
def isClosed (k : Marks) (key : Key) : Bool := k.closed.any fun c => c.isPrefixOf key

def «open» (k : Marks) (key : Key) : Marks := { k with opened := key :: k.opened }

def close (k : Marks) (key : Key) : Marks := { k with closed := key :: k.closed }

/-- Closes a value that has parts. -/
def closeParts (k : Marks) (key : Key) (v : Value) : Marks :=
  match v with
  | .map _ | .list _ => k.close key
  | _ => k

def addPending (k : Marks) (keys : List Key) : Marks := { k with pending := keys ++ k.pending }

/-- The dotted tables of the section that ends are opened. -/
def settle (k : Marks) : Marks := { k with opened := k.pending ++ k.opened, pending := [] }

/-- Forgets everything below a key. -/
def forget (k : Marks) (key : Key) : Marks :=
  { k with
    opened := k.opened.filter (!key.isPrefixOf ·)
    closed := k.closed.filter (!key.isPrefixOf ·) }

end Marks

/-- What has been read of a file: its tables, their marks, and the key of the last header. -/
structure Draft where
  tables : Mapping
  marks : Marks
  header : Key

namespace Draft

def empty : Draft := ⟨[], .empty, []⟩

/-- The header of a table. -/
def openTable (d : Draft) (key : Key) : Except Problem Draft :=
  let marks := d.marks.settle
  if marks.isOpened key || marks.isClosed key then .error (.declaredTwice key) else do
    return ⟨← within true d.tables key .ok, marks.open key, key⟩

/-- Adds an empty table to an array of tables. -/
def appendTable (m : Mapping) (name : String) : Except Problem Mapping :=
  match m.get? name with
  | none => .ok (m.put name (.list [.map []]))
  | some (.list items) => .ok (m.put name (.list (items ++ [.map []])))
  | some _ => .error .overwritten

/-- The header of one more table of an array. -/
def openItem (d : Draft) (key : Key) : Except Problem Draft :=
  let marks := d.marks.settle
  if marks.isClosed key then .error (.immutable key) else do
    let tables ← within true d.tables key.dropLast (appendTable · (key.getLastD ""))
    return ⟨tables, (marks.forget key).open key, key⟩

/-- The beginnings of a path below a header, the path itself left out. -/
def pathsOf (header key : Key) : List Key := ((List.range key.length).drop 1).map fun n => header ++ key.take n

/-- Enters a value that is not there yet. -/
def enter (problem : Problem) (name : String) (v : Value) (m : Mapping) : Except Problem Mapping :=
  if m.has name then .error problem else .ok (m.put name v)

/-- A key and its value. -/
def assign (d : Draft) (key : Key) (v : Value) : Except Problem Draft :=
  let paths := pathsOf d.header key
  let parent := d.header ++ key.dropLast
  match paths.find? d.marks.isOpened with
  | some path => .error (.redefined path)
  | none =>
    if d.marks.isClosed parent then .error (.immutable parent) else do
      let tables ← within true d.tables parent (enter .overwritten (key.getLastD "") v)
      return { d with tables, marks := (d.marks.addPending paths).closeParts (d.header ++ key) v }

/-- A key and its value inside of braces. -/
def assignInline (m : Mapping) (marks : Marks) (key : Key) (v : Value) : Except Problem (Mapping × Marks) :=
  if marks.isClosed key then .error (.immutable key) else do
    let name := key.getLastD ""
    let tables ← within false m key.dropLast (enter (.duplicateKey name) name v)
    return (tables, marks.closeParts key v)

end Draft

end NoteVault.Toml
