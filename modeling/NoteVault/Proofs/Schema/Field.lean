import NoteVault.Schema.Summary

/-!
What a field gives to a new note, and how it is described: two relations with a case for each way to declare a field.
-/
namespace NoteVault

/-- What a new note gets for a field: a literal is its own value; else a default that is given, else the first value of
an enumeration, an empty list, an empty mapping or an empty text. -/
inductive Field.Offers (f : Field) : Value → Prop
  | literal {v : Value} (htype : f.type = .literal v) : f.Offers v
  | given {v : Value} (htype : ∀ literal, f.type ≠ .literal literal) (hdefault : f.default = some v) : f.Offers v
  | first {v : Value} {values : List Value} (htype : f.type = .enum (v :: values)) (hdefault : f.default = none) :
    f.Offers v
  | list {items : Option FieldKind} (htype : f.type = .array items) (hdefault : f.default = none) : f.Offers (.list [])
  | map (htype : f.type = .object) (hdefault : f.default = none) : f.Offers (.map [])
  | text (htype : f.type = .enum [] ∨ f.type = .date ∨ ∃ minLength, f.type = .string minLength)
    (hdefault : f.default = none) : f.Offers (.str "")

/-- The kind of a type, the value of a literal other than null, the values of an enumeration, and the kind of a list's
items. -/
inductive FieldType.IsDescribedBy :
    FieldType → FieldKind → Option Value → Option (List Value) → Option FieldKind → Prop
  | string {minLength : Int} : IsDescribedBy (.string minLength) .string none none none
  | date : IsDescribedBy .date .date none none none
  | null : IsDescribedBy (.literal .null) .literal none none none
  | literal {v : Value} (hv : v ≠ .null) : IsDescribedBy (.literal v) .literal (some v) none none
  | enum {values : List Value} : IsDescribedBy (.enum values) .enum none (some values) none
  | array {items : Option FieldKind} : IsDescribedBy (.array items) .array none none items
  | object : IsDescribedBy .object .object none none none

/-- A summary names its field, tells whether it has to be there, and describes it if there is a description. -/
structure Field.IsDescribedBy (f : Field) (d : FieldSummary) : Prop where
  name : d.name = f.name
  required : d.required = true ↔ f.optional = false ∧ f.default = none
  description : ∀ text, d.description = some text ↔ f.description = text ∧ text ≠ ""
  type : f.type.IsDescribedBy d.kind d.literal d.values d.items

theorem nonEmpty?_eq_some_iff {s text : String} : nonEmpty? s = some text ↔ s = text ∧ text ≠ "" := by
  unfold nonEmpty?
  split
  next hs =>
    rw [hs]
    constructor
    · rintro ⟨⟩
    · rintro ⟨rfl, hne⟩
      exact absurd rfl hne
  next hs =>
    rw [Option.some.injEq]
    constructor
    · rintro rfl
      exact ⟨rfl, hs⟩
    · rintro ⟨rfl, -⟩
      rfl

namespace Field

variable (f : Field)

theorem offers_defaultValue : f.Offers f.defaultValue := by
  obtain ⟨name, type, optional, _ | v, description⟩ := f
  · cases type with
    | literal v => exact .literal rfl
    | string minLength => exact .text (.inr (.inr ⟨_, rfl⟩)) rfl
    | date => exact .text (.inr (.inl rfl)) rfl
    | enum values =>
      cases values with
      | nil => exact .text (.inl rfl) rfl
      | cons v values => exact .first rfl rfl
    | array items => exact .list rfl rfl
    | object => exact .map rfl rfl
  · cases type with
    | literal w => exact .literal rfl
    | _ => exact .given nofun rfl

variable {f} in
/-- There is one value that a new note gets. -/
theorem offers_iff {v : Value} : f.Offers v ↔ v = f.defaultValue := by
  refine ⟨fun h => ?_, fun h => h ▸ f.offers_defaultValue⟩
  cases h with
  | literal htype => rw [defaultValue, htype]
  | given htype hdefault =>
    rw [defaultValue, hdefault]
    cases hliteral : f.type with
    | literal w => exact absurd hliteral (htype w)
    | _ => rfl
  | first htype hdefault => rw [defaultValue, htype, hdefault]
  | list htype hdefault => rw [defaultValue, htype, hdefault]
  | map htype hdefault => rw [defaultValue, htype, hdefault]
  | text htype hdefault =>
    obtain htype | htype | ⟨minLength, htype⟩ := htype
    all_goals rw [defaultValue, htype, hdefault]

theorem isDescribedBy_summary : f.IsDescribedBy f.summary where
  name := rfl
  required := by simp [summary, required]
  description _ := nonEmpty?_eq_some_iff
  type := by
    unfold summary
    cases f.type with
    | literal v =>
      cases v with
      | null => exact .null
      | _ => exact .literal nofun
    | string minLength => exact .string
    | date => exact .date
    | enum values => exact .enum
    | array items => exact .array
    | object => exact .object

end Field

end NoteVault
