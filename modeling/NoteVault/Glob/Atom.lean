/-!
What a pattern of file names is made of, and how a part of it eats into a path. A path is matched by
keeping every rest that the parts read so far can leave.
-/
namespace NoteVault.Glob

/-- Characters between bounds, both included, or all characters but these. -/
structure CharSet where
  negated : Bool
  ranges : List (Char × Char)
  deriving DecidableEq, Repr

def CharSet.has (s : CharSet) (c : Char) : Bool :=
  s.ranges.any (fun (low, high) => low ≤ c && c ≤ high) != s.negated

inductive Atom where
  | char (c : Char)
  | set (s : CharSet)
  /-- One character of a name. -/
  | one
  /-- Any characters of a name, or none. -/
  | any
  /-- Some folders and the slash behind them, or nothing. -/
  | above
  /-- A slash and some folders, or nothing. -/
  | between
  /-- A slash and whatever follows. -/
  | below
  /-- A slash and whatever follows, or nothing. -/
  | belowOrHere
  /-- Some folders, a slash and whatever follows. -/
  | inside
  deriving DecidableEq, Repr

/-- No range of characters runs backwards. -/
def Atom.isOrdered : Atom → Bool
  | set s => s.ranges.all fun (low, high) => low ≤ high
  | _ => true

/-- The rests of a text after any number of characters of a class. -/
def restsWhile (p : Char → Bool) : List Char → List (List Char)
  | [] => [[]]
  | c :: rest => (c :: rest) :: if p c then restsWhile p rest else []

/-- A line break ends what folders and trailing parts may cover. -/
def isInLine (c : Char) : Bool := c ≠ '\n'

/-- The rests behind each slash that has something in front of it. -/
def restsAfterFolder : List Char → List (List Char)
  | c :: '/' :: rest =>
    if isInLine c then rest :: restsAfterFolder ('/' :: rest) else []
  | c :: rest => if isInLine c then restsAfterFolder rest else []
  | [] => []

def restsBelow : List Char → List (List Char)
  | '/' :: rest => restsWhile isInLine rest
  | _ => []

namespace Atom

/-- What a part can leave of a text. -/
def rests (a : Atom) (s : List Char) : List (List Char) :=
  match a, s with
  | char c, d :: rest => if c = d then [rest] else []
  | set cs, d :: rest => if cs.has d then [rest] else []
  | one, d :: rest => if d ≠ '/' then [rest] else []
  | any, s => restsWhile (· ≠ '/') s
  | above, s => s :: restsAfterFolder s
  | between, '/' :: c :: rest => ('/' :: c :: rest) :: if isInLine c then restsWhile isInLine rest else []
  | between, s => [s]
  | below, s => restsBelow s
  | belowOrHere, s => s :: restsBelow s
  | inside, s => (restsAfterFolder s).flatMap (restsWhile isInLine)
  | _, [] => []

end Atom

/-- Rests of one text, each once. -/
def distinct (rests : List (List Char)) : List (List Char) :=
  rests.foldl (fun seen s => if seen.any (·.length = s.length) then seen else s :: seen) []

/-- What parts, one after another, can leave of a text. -/
def restsOf (atoms : List Atom) (s : List Char) : List (List Char) :=
  atoms.foldl (fun rests a => distinct (rests.flatMap a.rests)) [s]

/-- The parts cover the path up to its end, or up to a line break that ends it. -/
def covers (atoms : List Atom) (path : List Char) : Bool :=
  (restsOf atoms path).any fun rest => rest = [] || rest = ['\n']

example : covers [.above, .char 'b', .any] "a/bc".toList = true := by decide +kernel

example : covers [.above, .char 'b', .any] "a/b/c".toList = false := by decide +kernel

end NoteVault.Glob
