import NoteVault.Proofs.Yaml.Node.Merge
import NoteVault.Proofs.Yaml.Takes

/-!
The text of a node with a tag for scalars, and what it stands for: a value exactly where the tag takes the text.
-/
namespace NoteVault.Yaml.Node

/-- The text of a scalar. The text of a mapping is that of the value under its first key `=`. -/
inductive HasText : Node → String → Prop
  | scalar {head : NodeHead} {text : String} : HasText (.scalar head text) text
  | value {head : NodeHead} {before after : List (Node × Node)} {key value : Node} {text : String}
    (hbefore : ∀ e ∈ before, e.1.head.tag ≠ .value) (hkey : key.head.tag = .value) (h : HasText value text) :
    HasText (.mapping head (before ++ (key, value) :: after)) text

theorem valueText_append {before after : List (Node × Node)} {key value : Node}
    (hbefore : ∀ e ∈ before, e.1.head.tag ≠ .value) (hkey : key.head.tag = .value) :
    valueText (before ++ (key, value) :: after) = some (scalarText value) := by
  induction before with
  | nil => rw [List.nil_append, valueText, if_pos hkey]
  | cons e before ih =>
    obtain ⟨hfirst, hrest⟩ := List.forall_mem_cons.1 hbefore
    rw [List.cons_append, valueText, if_neg hfirst, ih hrest]

theorem exists_of_valueText {entries : List (Node × Node)} {r : Except Error String} (h : valueText entries = some r) :
    ∃ before key value after, entries = before ++ (key, value) :: after ∧ (∀ e ∈ before, e.1.head.tag ≠ .value) ∧
      key.head.tag = .value ∧ scalarText value = r := by
  induction entries with
  | nil => cases h
  | cons e entries ih =>
    obtain ⟨key, value⟩ := e
    rw [valueText] at h
    split at h
    next hkey => exact ⟨[], key, value, entries, rfl, by simp, hkey, Option.some.inj h⟩
    next hkey =>
      obtain ⟨before, key', value', after, rfl, hbefore, hrest⟩ := ih h
      exact ⟨(key, value) :: before, key', value', after, rfl, List.forall_mem_cons.2 ⟨hkey, hbefore⟩, hrest⟩

theorem scalarText_eq_ok_iff {n : Node} {text : String} : n.scalarText = .ok text ↔ n.HasText text := by
  constructor
  · intro h
    induction hdepth : n.depth using Nat.strong_induction_on generalizing n with
    | _ depth ih =>
      subst hdepth
      cases n with
      | scalar head t =>
        rw [scalarText] at h
        cases h
        exact .scalar
      | sequence _ _ =>
        rw [scalarText] at h
        cases h
      | mapping head entries =>
        rw [scalarText] at h
        split at h
        next r hr =>
          obtain ⟨before, key, value, after, rfl, hbefore, hkey, hvalue⟩ := exists_of_valueText hr
          have hmem : (key, value) ∈ before ++ (key, value) :: after := by simp
          exact .value hbefore hkey (ih _ (depth_lt_of_mem_entries head hmem).2 (hvalue.trans h) rfl)
        next => cases h
  · intro h
    induction h with
    | scalar => rw [scalarText]
    | value hbefore hkey _ ih => rw [scalarText, valueText_append hbefore hkey, ih]

/-- A node without a text is at fault. -/
theorem exists_of_scalarText_error {n : Node} {e : Error} (h : n.scalarText = .error e) : ∃ f, e = .fault f := by
  induction hdepth : n.depth using Nat.strong_induction_on generalizing n with
  | _ depth ih =>
    subst hdepth
    cases n with
    | scalar _ _ =>
      rw [scalarText] at h
      cases h
    | sequence _ _ =>
      rw [scalarText] at h
      cases h
      exact ⟨_, rfl⟩
    | mapping head entries =>
      rw [scalarText] at h
      split at h
      next r hr =>
        obtain ⟨before, key, value, after, rfl, -, -, hvalue⟩ := exists_of_valueText hr
        have hmem : (key, value) ∈ before ++ (key, value) :: after := by simp
        exact ih _ (depth_lt_of_mem_entries head hmem).2 (hvalue.trans h) rfl
      next =>
        cases h
        exact ⟨_, rfl⟩

theorem exists_lift_error_iff {α : Type} {x : Except ValueError α} {P : Prop} (h : (∃ a, x = .ok a) ↔ P) :
    (∃ e, liftValue x = .error (.value e)) ↔ ¬ P := by
  rw [← h]
  cases x <;> simp [liftValue]

theorem exists_lifted_error_iff {α : Type} {x : Except ValueError α} {P : Prop} (f : α → Value)
    (h : (∃ a, x = .ok a) ↔ P) : (∃ e, (do return f (← liftValue x)) = Except.error (Error.value e)) ↔ ¬ P := by
  rw [← h]
  cases x <;> simp [liftValue, bind, Except.bind, pure, Except.pure]

/-- A node has no value, and not for a fault, exactly where its tag does not take its text, and where a point in time is
not written as a scalar. -/
theorem exists_scalarValue_error_iff (n : Node) : (∃ e, n.scalarValue = .error (.value e)) ↔
    ∃ text, n.HasText text ∧ (¬ n.head.tag.Takes text ∨ n.head.tag = .timestamp ∧ n.isScalar = false) := by
  simp only [← scalarText_eq_ok_iff]
  cases htext : n.scalarText with
  | error e =>
    obtain ⟨f, rfl⟩ := exists_of_scalarText_error htext
    refine ⟨fun ⟨e, h⟩ => ?_, fun ⟨_, h, _⟩ => by cases h⟩
    unfold scalarValue at h
    split at h <;> simp [htext, bind, Except.bind, refuse] at h
  | ok text =>
    have hread : ∀ {α : Type} (f : String → Except Error α), (Except.ok text >>= f) = f text := fun _ => rfl
    simp only [Except.ok.injEq, exists_eq_left', scalarValue, htext, hread]
    cases htag : n.head.tag with
    | bool => simpa only [Tag.Takes, reduceCtorEq, false_and, or_false] using
        exists_lifted_error_iff Value.bool (exists_boolValue_iff text)
    | int => simpa only [Tag.Takes, reduceCtorEq, false_and, or_false] using
        exists_lifted_error_iff Value.int (exists_intValue_iff text)
    | float => simpa only [Tag.Takes, reduceCtorEq, false_and, or_false] using
        exists_lifted_error_iff Value.float (exists_floatValue_iff text)
    | timestamp =>
      cases hscalar : n.isScalar with
      | true => simpa only [Tag.Takes, Bool.true_eq_false, and_false, or_false, if_true] using
          exists_lift_error_iff (exists_timestampValue_iff text)
      | false => simp
    | binary => cases binaryValue text <;> simp [Tag.Takes, refuse, pure, Except.pure]
    | _ => simp [Tag.Takes, refuse, pure, Except.pure]

end NoteVault.Yaml.Node
