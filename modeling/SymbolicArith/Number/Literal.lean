import SymbolicArith.Number.Shortest

-- Number literals: whole numbers, ratios and binary64 floats, their arithmetic, comparison and
-- text. A ratio may be whole, and is then another literal than the number it equals; no value is
-- made into such a ratio, and none comes out of arithmetic. Exact arithmetic is exact. An exact
-- operand that meets a float is first rounded to the nearest float; one too large for that has no
-- result. Comparison never rounds.
namespace SymbolicArith

inductive Literal where
  | whole (n : Int)
  | ratio (q : Rat)
  | float (value : Float)
  deriving DecidableEq

namespace Literal

instance : Hashable Literal where
  hash
    | .whole n => hash n
    | .ratio q => mixHash (hash q.num) (hash q.den)
    | .float x => mixHash 11 (hash x.toBits)

instance : Inhabited Literal := ⟨.whole 0⟩

-- An exact number as a literal: a whole one is no ratio.
def exact (q : Rat) : Literal := if q.den = 1 then .whole q.num else .ratio q

-- The number that an exact literal stands for.
def rational? : Literal → Option Rat
  | .whole n => some n
  | .ratio q => some q
  | .float _ => none

def toFloat? : Literal → Option Float
  | .whole n => Binary64.nearest? n
  | .ratio q => Binary64.nearest? q
  | .float x => some x

def add? (x y : Literal) : Option Literal :=
  match x.rational?, y.rational? with
  | some p, some q => some (exact (p + q))
  | _, _ => do return .float ((← x.toFloat?) + (← y.toFloat?))

def mul? (x y : Literal) : Option Literal :=
  match x.rational?, y.rational? with
  | some p, some q => some (exact (p * q))
  | _, _ => do return .float ((← x.toFloat?) * (← y.toFloat?))

def neg : Literal → Literal
  | .whole n => .whole (-n)
  | .ratio q => exact (-q)
  | .float x => .float (-x)

def integral? (q : Rat) : Option Int := if q.den = 1 then some q.num else none

-- The literal as an integer, if it is one; a whole ratio or float counts.
def integer? : Literal → Option Int
  | .whole n => some n
  | .ratio q => integral? q
  | .float x => (Binary64.toRat? x).bind integral?

-- Numerical equality: a float equals the rational it stands for, both zeros are equal,
-- and NaN equals nothing.
def equals : Literal → Literal → Bool
  | .float x, .float y => x == y
  | .float x, y => Binary64.toRat? x = y.rational?
  | x, .float y => Binary64.toRat? y = x.rational?
  | x, y => x.rational? = y.rational?

def equalsInt (x : Literal) (n : Int) : Bool := x.equals (.whole n)

-- Sameness as parts of a tree: equal numbers of one type.
def same : Literal → Literal → Bool
  | .whole m, .whole n => m = n
  | .ratio p, .ratio q => p = q
  | .float x, .float y => x == y
  | _, _ => false

def isNegative : Literal → Bool
  | .whole n => n < 0
  | .ratio q => q < 0
  | .float x => x < 0

-- The limit on exponents may be set as high as one likes, so the bases whose powers stay small are
-- answered without raising them.
def exactPower (base : Rat) (exponent : Int) : Rat :=
  if base = 0 then (if exponent = 0 then 1 else 0)
  else if base = 1 then 1
  else if base = -1 then (if exponent % 2 = 0 then 1 else -1)
  else Rat.zpow base exponent

-- A finite base whose power is infinite has no result, nor has an exponent beyond every float.
def floatPower? (base : Float) (exponent : Int) : Option Float := do
  let result := Float.pow base (← Binary64.nearest? exponent)
  if Binary64.isFinite base && result.isInf then none else some result

-- The power of two literals where it folds to one: the exponent must be whole and at most
-- `maxExponent` in size, and a zero base must not have a negative exponent.
def foldPower? (maxExponent : Nat) (base exponent : Literal) : Option Literal :=
  match exponent.integer? with
  | none => none
  | some n =>
    if base.equalsInt 0 && n < 0 then none
    else if maxExponent < n.natAbs then none
    else
      match base with
      | .whole b => some (exact (exactPower b n))
      | .ratio q => some (exact (exactPower q n))
      | .float x => (floatPower? x n).map .float

-- A whole float keeps its `.0`.
def floatLayout : Shortest.Layout where
  positionalFrom := -4
  positionalBelow := 16
  exponentDigits := 2
  wholeSuffix := ".0"
  infinity := "inf"
  nan := "nan"

-- The literal as it stands in an expression: `3`, `-1/2`, `1.5`.
def text : Literal → String
  | .whole n => toString n
  | .ratio q => if q.den = 1 then toString q.num else toString q.num ++ "/" ++ toString q.den
  | .float x => floatLayout.text x

-- A ratio in constructor form is written as one even if it is whole.
def ratioForm (q : Rat) : String :=
  "Fraction(" ++ toString q.num ++ ", " ++ toString q.den ++ ")"

-- The literal in constructor form: `3`, `Fraction(-1, 2)`, `1.5`.
def form : Literal → String
  | .whole n => toString n
  | .ratio q => ratioForm q
  | .float x => floatLayout.text x

-- An integer is written if it has no more digits than allowed, not counting its sign.
def digitsFit (digits : Option Nat) (n : Int) : Bool := digits.all (n.natAbs < Nat.pow 10 ·)

-- Whether the integers in the text of the literal are written under a limit on their digits.
def fits (digits : Option Nat) : Literal → Bool
  | .whole n => digitsFit digits n
  | .ratio q => digitsFit digits q.num && digitsFit digits q.den
  | .float _ => true

end Literal

end SymbolicArith
