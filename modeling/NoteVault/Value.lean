import NoteVault.Calendar
import NoteVault.Dictionary
import NoteVault.Number.Binary64

/-!
Decoded values. Mappings keep the order of their entries and hold every key once. Two equalities are
told apart: `=` for one and the same data, `Value.agrees` for the comparison that schemas use.
-/
namespace NoteVault

/-- Where an object is written: the position of its node in the source, and its number among the
objects that the node stands for. -/
structure Place where
  position : Nat
  part : Nat
  deriving DecidableEq, Repr

inductive Value where
  | null
  | bool (b : Bool)
  | int (n : Int)
  | float (x : Binary64)
  | str (s : String)
  | list (items : List Value)
  | map (entries : List (String × Value))
  | tuple (items : List Value)
  | set (members : List String)
  | bytes (octets : List UInt8)
  | date (d : Date)
  | datetime (t : DateTime)
  /-- An object that other parts of the data may hold too: all that carry one place are one object. -/
  | shared (place : Place) (v : Value)
  deriving Inhabited

/-- The entries of a mapping, in order. -/
abbrev Mapping := Dictionary Value

namespace Value

mutual

def beq : Value → Value → Bool
  | null, null => true
  | bool a, bool b => a == b
  | int a, int b => a == b
  | float a, float b => a == b
  | str a, str b => a == b
  | list a, list b => beqList a b
  | map a, map b => beqEntries a b
  | tuple a, tuple b => beqList a b
  | set a, set b => a == b
  | bytes a, bytes b => a == b
  | date a, date b => a == b
  | datetime a, datetime b => a == b
  | shared p a, shared q b => p == q && beq a b
  | _, _ => false

def beqList : List Value → List Value → Bool
  | [], [] => true
  | a :: as, b :: bs => beq a b && beqList as bs
  | _, _ => false

def beqEntries : List (String × Value) → List (String × Value) → Bool
  | [], [] => true
  | (k, a) :: as, (l, b) :: bs => k == l && beq a b && beqEntries as bs
  | _, _ => false

end

instance : BEq Value := ⟨beq⟩

mutual

theorem beq_refl : ∀ a : Value, beq a a = true
  | null => rfl
  | bool _ | int _ | float _ | str _ | set _ | bytes _ | date _ | datetime _ => by simp [beq]
  | list as | tuple as => by simp [beq, beqList_refl as]
  | map as => by simp [beq, beqEntries_refl as]
  | shared _ a => by simp [beq, beq_refl a]

theorem beqList_refl : ∀ as : List Value, beqList as as = true
  | [] => rfl
  | a :: as => by simp [beqList, beq_refl a, beqList_refl as]

theorem beqEntries_refl : ∀ as : List (String × Value), beqEntries as as = true
  | [] => rfl
  | (_, a) :: as => by simp [beqEntries, beq_refl a, beqEntries_refl as]

end

mutual

theorem eq_of_beq : ∀ {a b : Value}, beq a b = true → a = b
  | null, b => by cases b <;> simp [beq]
  | bool _, b | int _, b | float _, b | str _, b | set _, b | bytes _, b | date _, b | datetime _, b => by
    cases b <;> simp [beq]
  | list as, b | tuple as, b => by
    cases b <;> simp only [beq, Bool.false_eq_true, false_implies]
    exact fun h => by rw [eqList_of_beq h]
  | map as, b => by
    cases b <;> simp only [beq, Bool.false_eq_true, false_implies]
    exact fun h => by rw [eqEntries_of_beq h]
  | shared _ a, b => by
    cases b <;> simp only [beq, Bool.false_eq_true, false_implies, Bool.and_eq_true, beq_iff_eq]
    exact fun h => by rw [h.1, eq_of_beq h.2]

theorem eqList_of_beq : ∀ {as bs : List Value}, beqList as bs = true → as = bs
  | [], bs => by cases bs <;> simp [beqList]
  | a :: as, bs => by
    cases bs <;> simp only [beqList, Bool.false_eq_true, false_implies, Bool.and_eq_true]
    exact fun h => by rw [eq_of_beq h.1, eqList_of_beq h.2]

theorem eqEntries_of_beq : ∀ {as bs : List (String × Value)}, beqEntries as bs = true → as = bs
  | [], bs => by cases bs <;> simp [beqEntries]
  | (k, a) :: as, bs => by
    rcases bs with _ | ⟨⟨l, b⟩, bs⟩ <;>
      simp only [beqEntries, Bool.false_eq_true, false_implies, Bool.and_eq_true, beq_iff_eq]
    exact fun h => by rw [h.1.1, eq_of_beq h.1.2, eqEntries_of_beq h.2]

end

instance : LawfulBEq Value where
  eq_of_beq := eq_of_beq
  rfl := beq_refl _

instance : DecidableEq Value := fun a b => decidable_of_iff (a == b) beq_iff_eq

example : list [.null] ≠ list [] ∧ map [("a", int 1)] = map [("a", int 1)] := by decide

/-- The object itself, whether or not it is shared. -/
def bare : Value → Value
  | shared _ v => bare v
  | v => v

def isString : Value → Bool
  | str _ => true
  | _ => false

/-- The truth value as a number. -/
def ofTruth (b : Bool) : Int := if b then 1 else 0

/-- Numbers as integers or doubles, truth values being numbers. -/
def number? : Value → Option (Int ⊕ Binary64)
  | bool b => some (.inl (ofTruth b))
  | int n => some (.inl n)
  | float x => some (.inr x)
  | _ => none

def agreesNumber : Int ⊕ Binary64 → Int ⊕ Binary64 → Bool
  | .inl a, .inl b => a = b
  | .inl a, .inr y => y.isInt a
  | .inr x, .inl b => x.isInt b
  | .inr x, .inr y => x.same y

mutual

/-- Equality of data: numbers by their value whatever their kind, mappings without regard to order. -/
def agrees : Value → Value → Bool
  | shared _ a, b => agrees a b
  | null, b => match b.bare with
    | null => true
    | _ => false
  | bool x, b => match b.bare.number? with
    | some y => agreesNumber (.inl (ofTruth x)) y
    | none => false
  | int n, b => match b.bare.number? with
    | some y => agreesNumber (.inl n) y
    | none => false
  | float x, b => match b.bare.number? with
    | some y => agreesNumber (.inr x) y
    | none => false
  | str s, b => match b.bare with
    | str t => s = t
    | _ => false
  | list as, b => match b.bare with
    | list bs => agreesList as bs
    | _ => false
  | tuple as, b => match b.bare with
    | tuple bs => agreesList as bs
    | _ => false
  | map as, b => match b.bare with
    | map bs => as.length = bs.length && agreesEntries as bs
    | _ => false
  | set as, b => match b.bare with
    | set bs => as = bs
    | _ => false
  | bytes as, b => match b.bare with
    | bytes bs => as = bs
    | _ => false
  | date d, b => match b.bare with
    | date e => d = e
    | _ => false
  | datetime s, b => match b.bare with
    | datetime t => s.same t
    | _ => false

def agreesList : List Value → List Value → Bool
  | [], [] => true
  | a :: as, b :: bs => agrees a b && agreesList as bs
  | _, _ => false

/-- Every entry has its like on the other side. -/
def agreesEntries : List (String × Value) → List (String × Value) → Bool
  | [], _ => true
  | (k, a) :: as, bs =>
    (match bs.lookup k with
      | some b => agrees a b
      | none => false) && agreesEntries as bs

end

example : (bool true).agrees (float (.ofRatio false 1 1)) = true ∧ (int 1).agrees (str "1") = false := by
  decide +kernel

end Value

end NoteVault
