import NoteVault.Proofs.Yaml.Node.Stands

/-!
Null, truth values, texts and keys are read back.
-/
namespace NoteVault.Yaml

open Form (styleFor)

theorem Form.style_eq_single {wish : Option Style} {readsBack asKey : Bool} {s : List Char}
    (h : style wish readsBack asKey s = .single) : allowsSingle s = true := by
  unfold style at h
  repeat' split at h
  all_goals simp_all

/-- The text is not written between single quotes with a next-line character in it. -/
def IsKept (asKey : Bool) (s : String) : Prop :=
  styleFor asKey .str (Content.wishOf s) s.toList = .single → '\x85' ∉ s.toList

theorem isReadable_str {asKey : Bool} {s : String} (h : IsKept asKey s) :
    Form.IsReadable (styleFor asKey .str (Content.wishOf s) s.toList) s.toList := by
  have hliteral := (Form.styleFor_key asKey s).1
  have hfolded := (Form.styleFor_key asKey s).2
  rw [IsKept] at h
  cases hstyle : styleFor asKey .str (Content.wishOf s) s.toList with
  | plain =>
    obtain ⟨htag, hplain⟩ := Form.style_eq_plain hstyle
    refine ⟨hplain, fun hempty => ?_⟩
    rw [hempty] at htag
    exact absurd htag (by decide)
  | single => exact isSingle_of_allowsSingle (Form.style_eq_single hstyle) (h hstyle)
  | double => trivial
  | literal => exact absurd hstyle hliteral
  | folded => exact absurd hstyle hfolded

theorem restores_str {s : String} (h : IsKept false s) : (Content.ofValue [] [] (.str s)).1.Restores (.str s) := by
  refine ⟨.str, Content.wishOf s, s.toList, rfl, ⟨rfl, isReadable_str h⟩, fun mark => ⟨rfl, ?_⟩⟩
  rw [String.ofList_toList]
  rfl

/-- A scalar whose plain text has the tag of its value. -/
theorem restores_plain {v : Value} {tag : Tag} (text : List Char)
    (hcontent : (Content.ofValue [] [] v).1 = .scalar none tag none text) (htag : tag.isStandard = true)
    (hplain : Form.allowsPlain text = true) (hne : text ≠ []) (hof : Tag.ofPlain (String.ofList text) = tag)
    (hvalue : ∀ mark, (Node.scalar ⟨tag, mark, false, false⟩ (String.ofList text)).hasParts = false ∧
      (Node.scalar ⟨tag, mark, false, false⟩ (String.ofList text)).scalarValue = .ok v) :
    (Content.ofValue [] [] v).1.Restores v := by
  refine ⟨tag, none, text, hcontent, ?_, hvalue⟩
  rw [hcontent]
  refine ⟨htag, ?_⟩
  rw [show styleFor false tag none text = .plain by simp [styleFor, Form.style, hof, hplain]]
  exact ⟨hplain, hne⟩

theorem restores_null : (Content.ofValue [] [] .null).1.Restores .null :=
  restores_plain _ rfl rfl (by decide) (by decide) (by decide +kernel) fun _ => ⟨rfl, rfl⟩

theorem restores_bool (b : Bool) : (Content.ofValue [] [] (.bool b)).1.Restores (.bool b) := by
  cases b <;>
    exact restores_plain _ rfl rfl (by decide) (by decide) (by decide +kernel) fun _ => ⟨rfl, by
      rw [Node.scalarValue]; simp only [Node.head]; rfl⟩

end NoteVault.Yaml
