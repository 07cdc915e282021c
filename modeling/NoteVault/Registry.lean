import NoteVault.Schema
import NoteVault.Text.Order

/-!
The document types of a vault, in the order in which they were first registered.
-/
namespace NoteVault

/-- A registered document type: the field that holds a document's identity, the fields that name other
documents, and the order of keys in a header. -/
structure SchemaEntry where
  schema : Schema
  idField : String
  referenceFields : List String
  keyOrder : List String

def SchemaEntry.type (e : SchemaEntry) : String := e.schema.typeName

/-- A type is asked for that is not registered. -/
structure UnknownType where
  type : String
  deriving DecidableEq, Repr

def UnknownType.text (e : UnknownType) : String :=
  "Unknown schema type: \"" ++ e.type ++ "\". Register it with SchemaRegistry.register()."

structure Registry where
  entries : List SchemaEntry
  types_nodup : (entries.map SchemaEntry.type).Nodup

namespace Registry

def empty : Registry := ⟨[], List.nodup_nil⟩

/-- Registered types, in the order of their first registration. -/
def types (r : Registry) : List String := r.entries.map SchemaEntry.type

def entry? (r : Registry) (type : String) : Option SchemaEntry := r.entries.find? (·.type == type)

def schema? (r : Registry) (type : String) : Option Schema := (r.entry? type).map SchemaEntry.schema

def has (r : Registry) (type : String) : Bool := r.entries.any (·.type == type)

def size (r : Registry) : Nat := r.entries.length

/-- The entry of a type, which has to be registered. -/
def require (r : Registry) (type : String) : Except UnknownType SchemaEntry :=
  match r.entry? type with
  | some e => .ok e
  | none => .error ⟨type⟩

/-- Puts an entry in the place of the one of its type, or last. -/
def putEntry (e : SchemaEntry) : List SchemaEntry → List SchemaEntry
  | [] => [e]
  | f :: rest => if f.type = e.type then e :: rest else f :: putEntry e rest

theorem types_putEntry (e : SchemaEntry) (es : List SchemaEntry) :
    (putEntry e es).map SchemaEntry.type =
      if e.type ∈ es.map SchemaEntry.type then es.map SchemaEntry.type
      else es.map SchemaEntry.type ++ [e.type] := by
  induction es with
  | nil => simp [putEntry]
  | cons f rest ih =>
    by_cases h : f.type = e.type
    · simp [putEntry, h]
    · have h' : ¬ e.type = f.type := fun he => h he.symm
      have hp : putEntry e (f :: rest) = f :: putEntry e rest := by simp [putEntry, h]
      rw [hp, List.map_cons, ih, List.map_cons]
      by_cases hm : e.type ∈ rest.map SchemaEntry.type
      · rw [if_pos hm, if_pos (List.mem_cons_of_mem _ hm)]
      · rw [if_neg hm, if_neg (fun hc => (List.mem_cons.1 hc).elim h' hm), List.cons_append]

/-- Enters or replaces a type. -/
def put (r : Registry) (e : SchemaEntry) : Registry where
  entries := putEntry e r.entries
  types_nodup := by
    rw [types_putEntry]
    split
    · exact r.types_nodup
    next h =>
      refine List.nodup_append.2 ⟨r.types_nodup, by simp, ?_⟩
      intro a ha b hb
      rw [List.mem_singleton] at hb
      exact fun hab => h (hb ▸ hab ▸ ha)

/-- Registers a document type under its name. Without an order of keys it is that of the fields. -/
def register (r : Registry) (name : String) (schema : Schema) (idField : String)
    (referenceFields : List String) (keyOrder : Option (List String)) :
    Except SchemaError (SchemaEntry × Registry) :=
  if schema.typeName = name then
    let e : SchemaEntry := ⟨schema, idField, referenceFields, keyOrder.getD schema.fieldNames⟩
    .ok (e, r.put e)
  else .error (.otherType schema.typeName name)

/-- What a new document of a type gets, nothing for a type that is not registered. -/
def defaults (r : Registry) (type : String) : Mapping := ((r.schema? type).map Schema.defaults).getD []

/-- Registered types in the order of code points. -/
def sortedTypes (r : Registry) : List String := Text.sorted r.types

end Registry

end NoteVault
