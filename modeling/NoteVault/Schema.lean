import NoteVault.Dictionary
import NoteVault.Schema.Field

/-!
Document types: a closed, ordered set of fields, one of which is the literal `type`.
-/
namespace NoteVault

/-- Why a document type cannot be formed or registered. -/
inductive SchemaError where
  | duplicateField (type field : String)
  | noTypeField (type : String)
  | otherType (type registered : String)
  deriving DecidableEq, Repr

def SchemaError.text : SchemaError → String
  | duplicateField t f => "Schema " ++ Text.quoted t ++ " declares field " ++ Text.quoted f ++ " twice"
  | noTypeField t =>
    "Schema " ++ Text.quoted t ++ " must declare a 'type' field that is literal(" ++ Text.quoted t ++ ")"
  | otherType t r =>
    "Schema model is for type " ++ Text.quoted t ++ ", cannot register as " ++ Text.quoted r

/-- A document type. -/
structure Schema where
  typeName : String
  fields : List Field
  description : String
  names_nodup : (fields.map Field.name).Nodup
  type_literal : ∃ f ∈ fields, f.name = "type" ∧ f.type = .literal (.str typeName)

namespace Schema

/-- The first name in a list that occurs earlier in it. -/
def firstRepeated (seen : List String) : List String → Option String
  | [] => none
  | name :: rest => if name ∈ seen then some name else firstRepeated (name :: seen) rest

theorem nodup_of_firstRepeated {seen names : List String} (h : firstRepeated seen names = none) :
    names.Nodup ∧ ∀ name ∈ names, name ∉ seen := by
  induction names generalizing seen with
  | nil => simp
  | cons name rest ih =>
    simp only [firstRepeated] at h
    split at h
    · simp at h
    next hs =>
      obtain ⟨hn, hm⟩ := ih h
      refine ⟨List.nodup_cons.2 ⟨fun hmem => hm name hmem (List.mem_cons_self), hn⟩, ?_⟩
      intro x hx
      rcases List.mem_cons.1 hx with rfl | hx
      · exact hs
      · exact fun hxs => hm x hx (List.mem_cons_of_mem _ hxs)

/-- The document type with these fields. -/
def make (typeName : String) (fields : List Field) (description : String) : Except SchemaError Schema :=
  match h : firstRepeated [] (fields.map Field.name) with
  | some name => .error (.duplicateField typeName name)
  | none =>
    if ht : ∃ f ∈ fields, f.name = "type" ∧ f.type = .literal (.str typeName) then
      .ok ⟨typeName, fields, description, (nodup_of_firstRepeated h).1, ht⟩
    else .error (.noTypeField typeName)

def fieldNames (s : Schema) : List String := s.fields.map Field.name

/-- The field of a name. -/
def field? (s : Schema) (name : String) : Option Field := s.fields.find? (·.name == name)

def has (s : Schema) (name : String) : Bool := s.fields.any (·.name == name)

/-- The document type in a line. -/
def display (s : Schema) : String :=
  "SchemaModel(" ++ Text.quoted s.typeName ++ ", fields=" ++ (Value.list (s.fieldNames.map .str)).display ++ ")"

/-- What a new document gets for the fields that are not optional. -/
def defaults (s : Schema) : Mapping :=
  (s.fields.filter (!·.optional)).map fun f => (f.name, f.defaultValue)

end Schema

end NoteVault
