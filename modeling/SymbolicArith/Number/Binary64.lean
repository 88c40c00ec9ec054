-- Binary64 numbers and exact rationals: the rational a finite number stands for, and the number
-- nearest to a rational, where a tie goes to the even significand.
namespace SymbolicArith.Binary64

def significandBits : Nat := 52
def hiddenBit : Nat := Nat.pow 2 significandBits
def exponentCodes : Nat := 2048
def infinityBits : Nat := (exponentCodes - 1) * hiddenBit

-- A finite number is (-1)^negative · significand · 2^exponent.
structure Parts where
  negative : Bool
  significand : Nat
  exponent : Int

-- The parts of a finite number; infinities and NaN have none.
def parts? (x : Float) : Option Parts :=
  let bits := x.toBits.toNat
  let negative := decide (exponentCodes * hiddenBit ≤ bits)
  let code := bits / hiddenBit % exponentCodes
  let fraction := bits % hiddenBit
  if code = exponentCodes - 1 then none
  else if code = 0 then some ⟨negative, fraction, -1074⟩
  else some ⟨negative, hiddenBit + fraction, (code : Int) - 1075⟩

def scale (numerator : Int) (exponent : Int) : Rat :=
  if 0 ≤ exponent then (numerator * (Nat.pow 2 exponent.toNat : Nat) : Int)
  else mkRat numerator (Nat.pow 2 (-exponent).toNat)

def Parts.toRat (parts : Parts) : Rat :=
  scale (if parts.negative then -(parts.significand : Int) else parts.significand) parts.exponent

-- The rational a finite number stands for. Both zeros stand for 0.
def toRat? (x : Float) : Option Rat := (parts? x).map Parts.toRat

def isFinite (x : Float) : Bool := (parts? x).isSome
def isNaN (x : Float) : Bool := decide (infinityBits < x.toBits.toNat % (exponentCodes * hiddenBit))

-- The quotient rounded to the nearest natural number, a tie to the even one.
def roundHalfEven (numerator denominator : Nat) : Nat :=
  let quotient := numerator / denominator
  let twice := 2 * (numerator % denominator)
  if twice < denominator then quotient
  else if denominator < twice then quotient + 1
  else quotient + quotient % 2

-- The exponent at which the quotient has 53 significand bits, or the subnormal one if that is
-- greater.
def unitExponent (numerator denominator : Nat) : Int :=
  let estimate : Int := (Nat.log2 numerator : Int) - Nat.log2 denominator
  let reached : Bool :=
    if 0 ≤ estimate then denominator * Nat.pow 2 estimate.toNat ≤ numerator
    else denominator ≤ numerator * Nat.pow 2 (-estimate).toNat
  max (-1074) ((if reached then estimate else estimate - 1) - significandBits)

-- A significand that rounds up to 2^53 carries into the exponent field by itself.
def magnitudeBits (numerator denominator : Nat) : Nat :=
  let exponent := unitExponent numerator denominator
  let significand :=
    if 0 ≤ exponent then roundHalfEven numerator (denominator * Nat.pow 2 exponent.toNat)
    else roundHalfEven (numerator * Nat.pow 2 (-exponent).toNat) denominator
  (exponent + 1074).toNat * hiddenBit + significand

-- The number nearest to a rational. A rational whose nearest number would be infinite has none;
-- one too small to be told from zero becomes the zero of its sign.
def nearest? (q : Rat) : Option Float :=
  let bits := if q.num = 0 then 0 else magnitudeBits q.num.natAbs q.den
  if infinityBits ≤ bits then none
  else
    let signed := if q.num < 0 then exponentCodes * hiddenBit + bits else bits
    some (Float.ofBits (UInt64.ofNat signed))

end SymbolicArith.Binary64
