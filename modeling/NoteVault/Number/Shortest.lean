import NoteVault.Number.Binary64

/-!
The fewest decimal digits that read back as the same double, and of several such decimals the nearest
one. The layout of the digits is a separate record.
-/
namespace NoteVault.Binary64

/-- A positive decimal `0.d₁d₂… * 10 ^ point`, without zeros at its ends. -/
structure Digits where
  digits : List Char
  point : Int
  deriving DecidableEq, Repr

/-- Four times the mantissa and the two ends of the interval of reals that round to it. Below a power
of two the neighbour is nearer. -/
def quadrupled (m : Nat) (e : Int) : Nat × Nat × Nat :=
  if m = leadingBit ∧ minExponent < e then (4 * m - 1, 4 * m, 4 * m + 2)
  else (4 * m - 2, 4 * m, 4 * m + 2)

/-- The candidate `k * 10 ^ p` reads back as `m * 2 ^ e`: it lies in the interval, whose ends count when
the mantissa is even. -/
def readsBack (m : Nat) (e : Int) (k : Nat) (p : Int) : Bool :=
  let (lo, _, hi) := quadrupled m e
  let (n, d) := scaled k 1 (e - 2)
  let (n, d) := if 0 ≤ p then (n * Nat.pow 10 p.toNat, d) else (n, d * Nat.pow 10 (-p).toNat)
  if m % 2 = 0 then lo * d ≤ n && n ≤ hi * d else lo * d < n && n < hi * d

/-- The value divided by `10 ^ p`, as a ratio. -/
def onGrid (m : Nat) (e p : Int) : Nat × Nat :=
  let (n, d) := scaled m 1 (-e)
  if 0 ≤ p then (n, d * Nat.pow 10 p.toNat) else (n * Nat.pow 10 (-p).toNat, d)

/-- The best point of the grid of step `10 ^ p`, if one reads back. -/
def bestOnGrid (m : Nat) (e p : Int) : Option Nat :=
  let (n, d) := onGrid m e p
  let near := roundHalfEven n d
  let far := if near = n / d then near + 1 else n / d
  if readsBack m e near p then some near else if readsBack m e far p then some far else none

/-- The exponent of the leading decimal digit, plus one: `10 ^ (point - 1) ≤ m * 2 ^ e < 10 ^ point`. -/
def decimalPoint (m : Nat) (e : Int) : Int :=
  if 0 ≤ e then (Nat.toDigits 10 (m * Nat.pow 2 e.toNat)).length
  else
    let n := m * Nat.pow 10 (-e).toNat / Nat.pow 2 (-e).toNat
    (Nat.toDigits 10 n).length - (-e)

/-- Searches the grids from coarse to fine, at most `fuel` of them. -/
def searchGrids (m : Nat) (e : Int) : Nat → Int → Option (Nat × Int)
  | 0, _ => none
  | fuel + 1, p =>
    match bestOnGrid m e p with
    | some k => some (k, p)
    | none => searchGrids m e fuel (p - 1)

/-- The shortest digits of the positive double `m * 2 ^ e`; seventeen are always enough. -/
def shortest (m : Nat) (e : Int) : Digits :=
  let point := decimalPoint m e
  match searchGrids m e 17 (point - 1) with
  | none => ⟨['0'], point⟩
  | some (k, p) =>
    let ds := Nat.toDigits 10 k
    ⟨(ds.reverse.dropWhile (· = '0')).reverse, p + ds.length⟩

/-- How the digits of a double are laid out. -/
structure Layout where
  /-- Least exponent written positionally. -/
  positionalFrom : Int
  /-- Least exponent above those that are written positionally. -/
  positionalBelow : Int
  /-- Least number of digits of an exponent. -/
  exponentWidth : Nat
  /-- One digit before an exponent is followed by a point and a zero. -/
  exponentPoint : Bool
  infinityText : String
  nanText : String

/-- Positional from `0.0001` up to sixteen digits before the point, with at least one digit after the
point; else one digit before the point and a signed exponent of two digits or more. -/
def plainLayout : Layout := ⟨-4, 16, 2, false, "inf", "nan"⟩

def padLeft (width : Nat) (ds : List Char) : List Char :=
  List.replicate (width - ds.length) '0' ++ ds

/-- Digits with a point in their midst or zeros around them. -/
def positional (ds : List Char) (point : Int) : List Char :=
  if point ≤ 0 then ['0', '.'] ++ List.replicate (-point).toNat '0' ++ ds
  else
    let whole := ds.take point.toNat
    let part := ds.drop point.toNat
    whole ++ List.replicate (point.toNat - ds.length) '0' ++ ['.'] ++ (if part.isEmpty then ['0'] else part)

/-- One digit, the others after a point, and the exponent. -/
def scientific (l : Layout) (ds : List Char) (exponent : Int) : List Char :=
  let mantissa := match ds with
    | [] => ['0']
    | [d] => if l.exponentPoint then [d, '.', '0'] else [d]
    | d :: rest => d :: '.' :: rest
  mantissa ++ ['e', if exponent < 0 then '-' else '+'] ++
    padLeft l.exponentWidth (Nat.toDigits 10 exponent.natAbs)

def Layout.write (l : Layout) (x : Binary64) : String :=
  match x with
  | nan => l.nanText
  | infinite s => (if s then "-" else "") ++ l.infinityText
  | finite s m e =>
    let body :=
      if m = 0 then ['0', '.', '0'] else
        let ⟨ds, point⟩ := shortest m e
        if l.positionalFrom ≤ point - 1 && point - 1 < l.positionalBelow then positional ds point
        else scientific l ds (point - 1)
    String.ofList (if s then '-' :: body else body)

/-- The text of a number in messages and data. -/
def text (x : Binary64) : String := plainLayout.write x

example : (ofDecimal false 1 16).text = "1e+16" ∧ (ofDecimal false 15 (-8)).text = "1.5e-07" := by
  decide +kernel

example : (ofDecimal true 0 0).text = "-0.0" ∧ (ofDecimal false 1 15).text = "1000000000000000.0" := by
  decide +kernel

example : (ofDecimal false 5 (-324)).text = "5e-324" ∧ (ofDecimal false 1 (-4)).text = "0.0001" := by
  decide +kernel

end NoteVault.Binary64
