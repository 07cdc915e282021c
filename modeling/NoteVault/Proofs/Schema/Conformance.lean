import NoteVault.Proofs.Calendar
import NoteVault.Proofs.Failure
import NoteVault.Proofs.Validation
import NoteVault.Schema.Standard

/-!
What a document type asks of front matter. The values that a field takes are a relation that no check has a part in;
validation finds no error exactly where the front matter conforms to its type, and otherwise tells of the fields at
fault in the order of the type.
-/
namespace NoteVault

/-- The values of a type. The items of a list have a kind, and nothing else is asked of them. -/
inductive FieldType.Takes : FieldType → Value → Prop
  | string {minLength : Int} {v : Value} {s : String} (hv : v.bare = .str s) (hlength : minLength ≤ s.length) :
    Takes (.string minLength) v
  | date {v : Value} (d : Date) (hv : v.bare = .str d.text) : Takes .date v
  | literal {literal v : Value} (hvalue : v.agrees literal = true) (hkind : v.kind = literal.kind) :
    Takes (.literal literal) v
  | enum {values : List Value} {v w : Value} (hw : w ∈ values) (hvalue : v.agrees w = true) : Takes (.enum values) v
  | list {v : Value} {items : List Value} (hv : v.bare = .list items) : Takes (.array none) v
  | listOf {kind : FieldKind} {v : Value} {items : List Value} (hv : v.bare = .list items)
    (hitems : ∀ item ∈ items, Takes (.ofKind kind) item) : Takes (.array (some kind)) v
  | object {v : Value} {entries : List (String × Value)} (hv : v.bare = .map entries) : Takes .object v

/-- A text is read as a day exactly when it is the text of one. -/
theorem isIsoDate_iff {s : String} : isIsoDate s = true ↔ ∃ d : Date, s = d.text := by
  rw [isIsoDate, Bool.and_eq_true, Option.isSome_iff_exists]
  constructor
  · rintro ⟨-, d, hd⟩
    exact ⟨d, String.toList_inj.1 (Date.text_of_ofText? hd).symm⟩
  · rintro ⟨d, rfl⟩
    exact ⟨by simp [hasDayForm, Date.afterDay?_of_ofText? d.ofText?_text], d, d.ofText?_text⟩

namespace FieldType

variable {v : Value}

theorem checkString_eq_none_iff {minLength : Int} : checkString minLength v = none ↔ (string minLength).Takes v := by
  constructor
  · intro h
    unfold checkString at h
    split at h
    next s hv =>
      refine .string hv ?_
      simpa using h
    next => cases h
  · intro h
    cases h with
    | string hv hlength => simpa [checkString, hv] using hlength

theorem checkDate_eq_none_iff : checkDate v = none ↔ date.Takes v := by
  constructor
  · intro h
    unfold checkDate at h
    split at h
    next s hv =>
      obtain ⟨d, rfl⟩ := isIsoDate_iff.1 (by simpa using h : isIsoDate s = true)
      exact .date d hv
    next => cases h
  · intro h
    cases h with
    | date d hv => simp [checkDate, hv, isIsoDate_iff.2 ⟨d, rfl⟩]

theorem checkLiteral_eq_none_iff {w : Value} : checkLiteral w v = none ↔ (literal w).Takes v := by
  have hcheck : checkLiteral w v = none ↔ v.agrees w = true ∧ v.kind = w.kind := by simp [checkLiteral]
  rw [hcheck]
  constructor
  · rintro ⟨hvalue, hkind⟩
    exact .literal hvalue hkind
  · intro h
    cases h with
    | literal hvalue hkind => exact ⟨hvalue, hkind⟩

theorem checkEnum_eq_none_iff {values : List Value} : checkEnum values v = none ↔ (enum values).Takes v := by
  have hcheck : checkEnum values v = none ↔ ∃ w ∈ values, v.agrees w = true := by simp [checkEnum]
  rw [hcheck]
  constructor
  · rintro ⟨w, hw, hvalue⟩
    exact .enum hw hvalue
  · intro h
    cases h with
    | enum hw hvalue => exact ⟨_, hw, hvalue⟩

theorem checkObject_eq_none_iff : checkObject v = none ↔ object.Takes v := by
  constructor
  · intro h
    unfold checkObject at h
    split at h
    next entries hv => exact .object hv
    next => cases h
  · intro h
    cases h with
    | object hv => simp [checkObject, hv]

theorem checkArray_eq_none_iff {checkItem : Value → Option FieldProblem} :
    checkArray checkItem v = none ↔ ∃ items, v.bare = .list items ∧ ∀ item ∈ items, checkItem item = none := by
  unfold checkArray
  split
  next items hv =>
    simp only [List.findSome?_eq_none_iff, Option.map_eq_none_iff]
    constructor
    · intro h
      refine ⟨items, hv, fun item hitem => ?_⟩
      obtain ⟨n, hn, rfl⟩ := List.mem_iff_getElem.1 hitem
      exact h (items[n], n) (List.mem_zipIdx_iff_getElem?.2 (by simp [hn]))
    · rintro ⟨items', hv', h⟩ ⟨item, n⟩ hmem
      obtain rfl : items = items' := by simpa [hv] using hv'
      exact h item (List.fst_mem_of_mem_zipIdx hmem)
  next hv =>
    refine iff_of_false (by simp) ?_
    rintro ⟨items, hlist, -⟩
    exact hv items hlist

theorem check_list_eq_none_iff : (array none).check v = none ↔ (array none).Takes v := by
  rw [check, checkArray_eq_none_iff]
  constructor
  · rintro ⟨items, hv, -⟩
    exact .list hv
  · intro h
    cases h with
    | list hv => exact ⟨_, hv, fun _ _ => rfl⟩

/-- An item is checked as a value of its kind, for which nothing else is asked. -/
theorem checkKind_eq_none_iff (kind : FieldKind) : checkKind kind v = none ↔ (ofKind kind).Takes v := by
  cases kind with
  | string => exact checkString_eq_none_iff
  | date => exact checkDate_eq_none_iff
  | literal => exact checkLiteral_eq_none_iff
  | enum => exact checkEnum_eq_none_iff
  | array => exact check_list_eq_none_iff
  | object => exact checkObject_eq_none_iff

/-- The check passes the values of the type, and no others. -/
theorem check_eq_none_iff (t : FieldType) : t.check v = none ↔ t.Takes v := by
  cases t with
  | string minLength => exact checkString_eq_none_iff
  | date => exact checkDate_eq_none_iff
  | literal w => exact checkLiteral_eq_none_iff
  | enum values => exact checkEnum_eq_none_iff
  | object => exact checkObject_eq_none_iff
  | array items =>
    cases items with
    | none => exact check_list_eq_none_iff
    | some kind =>
      rw [check, checkArray_eq_none_iff]
      constructor
      · rintro ⟨items, hv, hitems⟩
        refine .listOf hv fun item hitem => ?_
        exact (checkKind_eq_none_iff kind).1 (hitems item hitem)
      · intro h
        cases h with
        | listOf hv hitems =>
          refine ⟨_, hv, fun item hitem => ?_⟩
          exact (checkKind_eq_none_iff kind).2 (hitems item hitem)

/-- A value that the type does not take, where what is told of it shows an integer of the type that has too many digits
to be written: the length that a text falls short of, a literal, or a value of an enumeration. -/
inductive ShowsLong : FieldType → Value → Prop
  | string {minLength : Int} {v : Value} {s : String} (hv : v.bare = .str s) (hlength : s.length < minLength)
    (hlong : (Value.int minLength).hasLongInteger = true) : ShowsLong (.string minLength) v
  | literal {literal v : Value} (hv : ¬ (FieldType.literal literal).Takes v) (hlong : literal.hasLongInteger = true) :
    ShowsLong (.literal literal) v
  | enum {values : List Value} {v w : Value} (hv : ¬ (FieldType.enum values).Takes v) (hw : w ∈ values)
    (hlong : w.hasLongInteger = true) : ShowsLong (.enum values) v

variable {p : FieldProblem}

theorem isLong_of_checkString {minLength : Int} (h : checkString minLength v = some p) :
    p.isLong = true ↔ (string minLength).ShowsLong v := by
  unfold checkString at h
  split at h
  next s hs =>
    split at h
    next hlength =>
      cases h
      refine ⟨fun hlong => .string hs hlength hlong, fun hshows => ?_⟩
      cases hshows with
      | string _ _ hlong => exact hlong
    next => cases h
  next w hs =>
    cases h
    refine ⟨nofun, fun hshows => ?_⟩
    cases hshows with
    | string hv _ _ => exact absurd hv (hs _)

theorem isLong_of_checkDate (h : checkDate v = some p) : p.isLong = false := by
  unfold checkDate at h
  split at h
  · split at h
    · cases h
    · cases h
      rfl
  · cases h
    rfl

theorem isLong_of_checkLiteral {w : Value} (h : checkLiteral w v = some p) :
    p.isLong = true ↔ (literal w).ShowsLong v := by
  have hv : ¬ (literal w).Takes v := fun hv => by simp [checkLiteral_eq_none_iff.2 hv] at h
  unfold checkLiteral at h
  split at h
  · cases h
  · cases h
    refine ⟨fun hlong => .literal hv hlong, fun hshows => ?_⟩
    cases hshows with
    | literal _ hlong => exact hlong

theorem isLong_of_checkEnum {values : List Value} (h : checkEnum values v = some p)
    (hshort : v.hasLongInteger = false) :
    p.isLong = true ↔ (enum values).ShowsLong v := by
  have hv : ¬ (enum values).Takes v := fun hv => by simp [checkEnum_eq_none_iff.2 hv] at h
  unfold checkEnum at h
  split at h
  · cases h
  · cases h
    rw [FieldProblem.isLong, hshort, Bool.or_false, Value.anyLongInteger_eq_any, List.any_eq_true]
    constructor
    · rintro ⟨w, hw, hlong⟩
      exact .enum hv hw hlong
    · intro hshows
      cases hshows with
      | enum _ hw hlong => exact ⟨_, hw, hlong⟩

theorem isLong_of_checkObject (h : checkObject v = some p) : p.isLong = false := by
  unfold checkObject at h
  split at h
  · cases h
  · cases h
    rfl

theorem isLong_of_checkArray {checkItem : Value → Option FieldProblem} (h : checkArray checkItem v = some p)
    (hitem : ∀ item q, checkItem item = some q → item.hasLongInteger = false → q.isLong = false)
    (hv : v.hasLongInteger = false) : p.isLong = false := by
  unfold checkArray at h
  split at h
  next items hlist =>
    obtain ⟨⟨item, n⟩, hmem, hproblem⟩ := List.exists_of_findSome?_eq_some h
    obtain ⟨q, hq, rfl⟩ := Option.map_eq_some_iff.1 hproblem
    rw [← Value.hasLongInteger_bare, hlist, Value.hasLongInteger, Value.anyLongInteger_eq_any, List.any_eq_false] at hv
    have hshort := hv item (List.fst_mem_of_mem_zipIdx hmem)
    exact hitem item q hq (Bool.eq_false_iff.2 hshort)
  next =>
    cases h
    rfl

theorem isLong_of_checkList (h : checkArray (fun _ => none) v = some p) (hv : v.hasLongInteger = false) :
    p.isLong = false := by
  refine isLong_of_checkArray h (fun item q hq => ?_) hv
  cases hq

/-- An item is measured against a type that holds no long integer. -/
theorem isLong_of_checkKind {kind : FieldKind} (h : checkKind kind v = some p) (hv : v.hasLongInteger = false) :
    p.isLong = false := by
  cases kind with
  | string =>
    refine Bool.eq_false_iff.2 fun hlong => ?_
    cases (isLong_of_checkString h).1 hlong with
    | string _ _ hlong => cases Value.hasLongInteger_zero.symm.trans hlong
  | date => exact isLong_of_checkDate h
  | literal =>
    refine Bool.eq_false_iff.2 fun hlong => ?_
    cases (isLong_of_checkLiteral h).1 hlong with
    | literal _ hlong => cases hlong
  | enum =>
    refine Bool.eq_false_iff.2 fun hlong => ?_
    cases (isLong_of_checkEnum h hv).1 hlong with
    | enum _ hw _ => cases hw
  | array => exact isLong_of_checkList h hv
  | object => exact isLong_of_checkObject h

theorem ShowsLong.not_takes {t : FieldType} (h : t.ShowsLong v) : ¬ t.Takes v := by
  cases h with
  | string hv hlength _ =>
    intro htakes
    cases htakes with
    | string hv' hlength' =>
      cases hv.symm.trans hv'
      omega
  | literal hv _ => exact hv
  | enum hv _ _ => exact hv

/-- What is told of a short value cannot be worded exactly when it shows a long integer of the type. -/
theorem any_isLong_check_iff {t : FieldType} (hv : v.hasLongInteger = false) :
    (t.check v).any FieldProblem.isLong = true ↔ t.ShowsLong v := by
  cases h : t.check v with
  | none => exact iff_of_false (by simp) fun hshows => hshows.not_takes ((check_eq_none_iff t).1 h)
  | some p =>
    rw [Option.any_some]
    cases t with
    | string minLength => exact isLong_of_checkString h
    | literal w => exact isLong_of_checkLiteral h
    | enum values => exact isLong_of_checkEnum h hv
    | date => exact iff_of_false (by simp [isLong_of_checkDate h]) nofun
    | object => exact iff_of_false (by simp [isLong_of_checkObject h]) nofun
    | array items =>
      refine iff_of_false (Bool.eq_false_iff.1 ?_) nofun
      cases items with
      | none => exact isLong_of_checkList h hv
      | some kind => exact isLong_of_checkArray h (fun _ _ hq hitem => isLong_of_checkKind hq hitem) hv

end FieldType

namespace Field

/-- The field is there if it has to be, and takes what stands in it. -/
structure FitsIn (f : Field) (m : Mapping) : Prop where
  present : f.required = true → m.get? f.name ≠ none
  takes : ∀ v, m.get? f.name = some v → f.type.Takes v

/-- An issue that tells of a field: of tags that are a text where a list belongs under a code of its own. -/
structure IsTold (f : Field) (m : Mapping) (i : Issue) : Prop where
  severity : i.severity = .error
  path : i.path = [f.name]
  code : i.code = .schemaInvalid ∨ i.code = .tagsNotArray
  textTags : i.code = .tagsNotArray ↔ f.name = "tags" ∧ f.isArray = true ∧ ∃ s, m.get? f.name = some (.str s)
  required : m.get? f.name = none → i.message = "Required"

variable {f : Field} {m : Mapping}

/-- A field is told of exactly when it does not fit. -/
theorem issue?_eq_none_iff : f.issue? m = none ↔ f.FitsIn m := by
  unfold issue?
  split
  next hnone =>
    constructor
    · intro h
      refine ⟨fun hrequired => ?_, fun v hv => ?_⟩
      · rw [if_pos hrequired] at h
        cases h
      · rw [hnone] at hv
        cases hv
    · intro h
      exact if_neg fun hrequired => h.present hrequired hnone
  next v hsome =>
    rw [valueIssue?_eq_none_iff, check, FieldType.check_eq_none_iff]
    constructor
    · intro h
      refine ⟨fun _ hnone => ?_, fun w hw => ?_⟩
      · rw [hsome] at hnone
        cases hnone
      · obtain rfl : v = w := Option.some.inj (hsome.symm.trans hw)
        exact h
    · intro h
      exact h.takes v hsome

instance : Decidable (f.FitsIn m) :=
  decidable_of_iff ((f.issue? m).isNone = true) (Option.isNone_iff_eq_none.trans issue?_eq_none_iff)

theorem valueIssue?_of_not_textTags {v : Value} (h : ¬ (f.name = "tags" ∧ f.isArray = true ∧ ∃ s, v = .str s)) :
    f.valueIssue? v = (f.check v).map (.fieldMisfit f.name) := by
  unfold valueIssue?
  split
  next s htags =>
    obtain ⟨hname, harray⟩ : f.name = "tags" ∧ f.isArray = true := by simpa using htags
    exact absurd ⟨hname, harray, s, rfl⟩ h
  next => rfl

theorem isTold_of_issue? {i : Issue} (h : f.issue? m = some i) : f.IsTold m i := by
  unfold issue? at h
  split at h
  next hnone =>
    split at h
    · cases h
      refine ⟨rfl, rfl, .inl rfl, ?_, fun _ => rfl⟩
      simp [Issue.fieldRequired, Issue.error, hnone]
    · cases h
  next v hsome =>
    have hpresent : m.get? f.name = none → i.message = "Required" := by simp [hsome]
    by_cases htags : f.name = "tags" ∧ f.isArray = true ∧ ∃ s, v = .str s
    · obtain ⟨hname, harray, s, rfl⟩ := htags
      obtain rfl : Issue.tagsText s = i := by simpa [valueIssue?, hname, harray] using h
      exact ⟨rfl, by rw [hname]; rfl, .inr rfl, iff_of_true rfl ⟨hname, harray, s, hsome⟩, hpresent⟩
    · obtain ⟨p, -, rfl⟩ := Option.map_eq_some_iff.1 ((valueIssue?_of_not_textTags htags).symm.trans h)
      refine ⟨rfl, rfl, .inl rfl, iff_of_false (by simp [Issue.fieldMisfit, Issue.error]) ?_, hpresent⟩
      rintro ⟨hname, harray, s, hs⟩
      exact htags ⟨hname, harray, s, Option.some.inj (hsome.symm.trans hs)⟩

end Field

namespace Schema

variable (s : Schema) {m : Mapping}

/-- Every key has a field, every field that has to be there is there, and every field takes what stands in it. -/
structure Conforms (s : Schema) (m : Mapping) : Prop where
  declared : ∀ key ∈ m.keys, key ∈ s.fieldNames
  fits : ∀ f ∈ s.fields, f.FitsIn m

/-- Issues that tell of each field at fault, in the order of the fields, and then of the keys that no field has. -/
def TellsFaults (s : Schema) (m : Mapping) (issues : List Issue) : Prop :=
  ∃ told, List.Forall₂ (fun f i => f.IsTold m i) (s.fields.filter fun f => ¬ f.FitsIn m) told ∧
    issues = told ++
      if m.keys.filter (· ∉ s.fieldNames) = [] then [] else [.keysUnknown (m.keys.filter (· ∉ s.fieldNames))]

/-- Nothing is told of front matter that conforms to its type, and of no other. -/
theorem issues_eq_nil_iff_conforms : s.issues m = [] ↔ s.Conforms m := by
  rw [s.issues_eq_nil_iff]
  constructor
  · rintro ⟨hfields, hkeys⟩
    refine ⟨fun key hkey => hkeys key ?_, fun f hf => Field.issue?_eq_none_iff.1 (hfields f hf)⟩
    exact fun hnone => Dictionary.get?_eq_none_iff.1 hnone hkey
  · intro h
    refine ⟨fun f hf => Field.issue?_eq_none_iff.2 (h.fits f hf), fun key hkey => h.declared key ?_⟩
    by_contra hnot
    exact hkey (Dictionary.get?_eq_none_iff.2 hnot)

/-- The issues of some fields are told of those that do not fit, one after another. -/
theorem forall₂_issues (m : Mapping) (fields : List Field) :
    List.Forall₂ (fun f i => f.IsTold m i) (fields.filter fun f => ¬ f.FitsIn m) (fields.filterMap (·.issue? m)) := by
  induction fields with
  | nil => exact .nil
  | cons f fields ih =>
    cases h : f.issue? m with
    | none =>
      have hfits := Field.issue?_eq_none_iff.1 h
      rw [List.filter_cons_of_neg (by simpa using hfits), List.filterMap_cons, h]
      exact ih
    | some i =>
      have hfault : ¬ f.FitsIn m := fun hfits => by simp [Field.issue?_eq_none_iff.2 hfits] at h
      rw [List.filter_cons_of_pos (by simpa using hfault), List.filterMap_cons, h]
      exact .cons (Field.isTold_of_issue? h) ih

theorem tellsFaults_issues (m : Mapping) : s.TellsFaults m (s.issues m) := by
  have hunknown : s.unknownKeys m = m.keys.filter (· ∉ s.fieldNames) := by
    refine List.filter_congr fun key _ => ?_
    rw [decide_not, Bool.eq_iff_iff, Bool.not_eq_true', Bool.not_eq_true', ← Bool.not_eq_true, s.has_iff,
      decide_eq_false_iff_not]
  refine ⟨_, forall₂_issues m s.fields, ?_⟩
  rw [issues, hunknown]
  cases m.keys.filter (· ∉ s.fieldNames) with
  | nil => rfl
  | cons key keys => rfl

end Schema

namespace Registry

variable (r : Registry) (config : Config) {m : Mapping}

/-- Front matter with short integers has issues that cannot be worded exactly when one of them shows a long integer of
the type. -/
theorem isLongAt_iff (hm : Value.entriesHaveLongInteger m = false) : r.isLongAt config m = true ↔
    ∃ e, r.entryOf? config m = some e ∧
      ∃ f ∈ e.schema.fields, ∃ v, m.get? f.name = some v ∧ f.type.ShowsLong v := by
  rw [Value.entriesHaveLongInteger_eq_any, List.any_eq_false] at hm
  rw [isLongAt, Option.any_eq_true]
  refine exists_congr fun e => and_congr_right fun _ => ?_
  rw [Schema.isLongAt, List.any_eq_true]
  refine exists_congr fun f => and_congr_right fun _ => ?_
  cases hv : m.get? f.name with
  | none => simp
  | some v =>
    have hshort : v.hasLongInteger = false := Bool.eq_false_iff.2 (hm (f.name, v) (Dictionary.mem_of_get? hv))
    rw [Option.bind_some, Field.check, FieldType.any_isLong_check_iff hshort]
    simp

theorem accepts_iff_conforms : r.Accepts config m ↔
    ∃ declared, m.get? "type" = some (.str declared) ∧ declared ≠ "" ∧
      ∀ s, r.schema? (config.resolve declared) = some s →
        s.Conforms (m.put "type" (.str (config.resolve declared))) := by
  rw [accepts_iff]
  constructor
  · rintro ⟨hdeclared, hissues⟩
    obtain ⟨declared, h⟩ := Option.ne_none_iff_exists'.1 hdeclared
    obtain ⟨htype, hne⟩ := Mapping.declaredType?_eq_some_iff.1 h
    refine ⟨declared, htype, hne, fun s hs => ?_⟩
    obtain ⟨e, he, rfl⟩ := Option.map_eq_some_iff.1 hs
    have hentry : r.entryOf? config m = some e := by rw [entryOf?, h, Option.bind_some, he]
    rw [← entry?_type he]
    exact e.schema.issues_eq_nil_iff_conforms.1 (hissues e hentry)
  · rintro ⟨declared, htype, hne, hconforms⟩
    have h := Mapping.declaredType?_eq_some_iff.2 ⟨htype, hne⟩
    refine ⟨by simp [h], fun e hentry => ?_⟩
    have he : r.entry? (config.resolve declared) = some e := by rwa [entryOf?, h, Option.bind_some] at hentry
    rw [entry?_type he]
    exact e.schema.issues_eq_nil_iff_conforms.2 (hconforms e.schema (by rw [schema?, he, Option.map_some]))

/-- The errors of front matter of a registered type are its faults against the type. -/
theorem tellsFaults_validate {declared : String} {s : Schema} (h : m.declaredType? = some declared)
    (hs : r.schema? (config.resolve declared) = some s) :
    s.TellsFaults (m.put "type" (.str (config.resolve declared))) ((r.validate config m).filter Issue.isError) := by
  have herrors : (r.validate config m).filter Issue.isError =
      s.issues (m.put "type" (.str (config.resolve declared))) := by
    rw [filter_validate (fun _ _ => rfl) h, verdict, hs]
    exact s.filter_judge _
  rw [herrors]
  exact s.tellsFaults_issues _

/-- Front matter has no error exactly when it declares a type and conforms to it, if it is registered. Otherwise the
faults against the type are told, one after another. For front matter with short integers there is no answer exactly
when a fault shows an integer of the type that is too long to be written. -/
theorem validate_conforms (m : Mapping) :
    (Value.entriesHaveLongInteger m = false → (r.isLongAt config m = true ↔
      ∃ e, r.entryOf? config m = some e ∧
        ∃ f ∈ e.schema.fields, ∃ v, m.get? f.name = some v ∧ f.type.ShowsLong v)) ∧
    ((∀ i ∈ r.validate config m, i.severity ≠ .error) ↔
      ∃ declared, m.get? "type" = some (.str declared) ∧ declared ≠ "" ∧
        ∀ s, r.schema? (config.resolve declared) = some s →
          s.Conforms (m.put "type" (.str (config.resolve declared)))) ∧
    ∀ declared s, m.get? "type" = some (.str declared) → declared ≠ "" →
      r.schema? (config.resolve declared) = some s →
      s.TellsFaults (m.put "type" (.str (config.resolve declared))) ((r.validate config m).filter Issue.isError) := by
  have herror : (∀ i ∈ r.validate config m, i.severity ≠ .error) ↔ r.Accepts config m := by
    refine forall₂_congr fun i _ => ?_
    simp [Issue.isError]
  refine ⟨isLongAt_iff r config, herror.trans (accepts_iff_conforms r config), fun declared s htype hne hs => ?_⟩
  exact tellsFaults_validate r config (Mapping.declaredType?_eq_some_iff.2 ⟨htype, hne⟩) hs

/-- A mapped type, and faults of all kinds: an identity that is no text, no state, tags that are a text, a key without a
field. None of them shows a long integer. -/
theorem validate_conforms_job :
    let config : Config := ⟨"1.0", [("job", "task")], [], true⟩
    let m : Mapping := [("type", .str "job"), ("odd", .null), ("title", .str "t"), ("id", .int 3), ("tags", .str "a")]
    Value.entriesHaveLongInteger m = false ∧
      (¬ ∃ e, standard.entryOf? config m = some e ∧
        ∃ f ∈ e.schema.fields, ∃ v, m.get? f.name = some v ∧ f.type.ShowsLong v) ∧
      ∃ s, standard.schema? "task" = some s ∧ ¬ s.Conforms (m.put "type" (.str "task")) ∧
        ((standard.validate config m).filter Issue.isError).map (fun i => (i.code, i.path)) =
          [(.schemaInvalid, ["id"]), (.schemaInvalid, ["status"]), (.tagsNotArray, ["tags"]), (.unknownKey, [])] ∧
        s.TellsFaults (m.put "type" (.str "task")) ((standard.validate config m).filter Issue.isError) := by
  intro config m
  obtain ⟨hworded, hconforms, htold⟩ := validate_conforms standard config m
  have hshort : Value.entriesHaveLongInteger m = false := by decide +kernel
  have hanswer : ¬ standard.isLongAt config m = true := by decide +kernel
  have herrors : ((standard.validate config m).filter Issue.isError).map (fun i => (i.code, i.path)) =
      [(.schemaInvalid, ["id"]), (.schemaInvalid, ["status"]), (.tagsNotArray, ["tags"]), (.unknownKey, [])] := by
    decide +kernel
  have htask : (standard.schema? "task").isSome = true := by decide +kernel
  obtain ⟨s, hs⟩ := Option.isSome_iff_exists.1 htask
  refine ⟨hshort, (hworded hshort).not.1 hanswer, s, hs, fun hs' => ?_, herrors, htold "job" s rfl (by decide) hs⟩
  -- without an error there is nothing to tell
  have hnone := hconforms.2 ⟨"job", rfl, by decide, fun s' hs'' => Option.some.inj (hs.symm.trans hs'') ▸ hs'⟩
  have hempty : (standard.validate config m).filter Issue.isError = [] :=
    List.filter_eq_nil_iff.2 fun i hi herror => hnone i hi (of_decide_eq_true herror)
  rw [hempty] at herrors
  cases herrors

/-- A literal of 4301 digits keeps front matter of its type from being judged, though the number there has one digit. -/
theorem isLongAt_long_literal :
    let fields : List Field := [.literal "type" "x" "", ⟨"n", .literal (.int (10 ^ 4300 : Nat)), false, none, ""⟩]
    let m : Mapping := [("type", .str "x"), ("n", .int 1)]
    ∃ s e r, Schema.make "x" fields "" = .ok s ∧ empty.register "x" s "id" [] none = .ok (e, r) ∧
      Value.entriesHaveLongInteger m = false ∧ r.isLongAt .default m = true := by
  intro fields m
  have hregistered : ((Schema.make "x" fields "").toOption.any fun s =>
      (empty.register "x" s "id" [] none).toOption.any fun entered => entered.2.isLongAt .default m) = true := by
    decide +kernel
  obtain ⟨s, hs, hregister⟩ := exists_of_toOption_any hregistered
  obtain ⟨⟨e, r⟩, hr, hlong⟩ := exists_of_toOption_any hregister
  exact ⟨s, e, r, hs, hr, by decide +kernel, hlong⟩

end Registry

end NoteVault
