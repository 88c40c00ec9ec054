import SymbolicArith.Number.Binary64

-- The shortest decimal of a binary64 number: the fewest digits that read back as the number, and of
-- those the nearest to it. A layout says how the digits are written.
namespace SymbolicArith.Shortest

-- The decimal `coefficient · 10^place`.
structure Decimal where
  coefficient : Nat
  place : Int

def tenTo (exponent : Int) : Rat :=
  if 0 ≤ exponent then (Nat.pow 10 exponent.toNat : Nat)
  else mkRat 1 (Nat.pow 10 (-exponent).toNat)

def Decimal.toRat (d : Decimal) : Rat := d.coefficient * tenTo d.place

-- The exponent of the leading digit: 10^result ≤ q < 10^(result + 1), for a positive q.
def leadingPlace (q : Rat) : Int :=
  let bits : Int := (Nat.log2 q.num.natAbs : Int) - Nat.log2 q.den
  let low := Int.fdiv (bits * 30103) 100000 - 1
  if tenTo (low + 2) ≤ q then low + 2 else if tenTo (low + 1) ≤ q then low + 1 else low

def reads (x : Float) (d : Decimal) : Bool := Binary64.nearest? d.toRat == some x

-- Of the two neighbours of `q` among the decimals of one place, the one that reads back as `x`;
-- of two, the nearer, and in a tie the even one.
def neighbour? (x : Float) (q : Rat) (place : Int) : Option Decimal :=
  let below := (q / tenTo place).floor.toNat
  let lower : Decimal := ⟨below, place⟩
  let upper : Decimal := ⟨below + 1, place⟩
  match reads x lower, reads x upper with
  | false, false => none
  | true, false => some lower
  | false, true => some upper
  | true, true =>
    let fromLower := q - lower.toRat
    let fromUpper := upper.toRat - q
    if fromLower < fromUpper then some lower
    else if fromUpper < fromLower then some upper
    else some (if below % 2 = 0 then lower else upper)

-- Seventeen digits always read back, so the search ends at the seventeenth place.
def fewestDigits (x : Float) (q : Rat) (top : Int) : Decimal :=
  ((List.range 17).findSome? fun (further : Nat) => neighbour? x q (top - further)).getD
    ⟨(q / tenTo (top - 16)).floor.toNat, top - 16⟩

def withoutTrailingZeros (d : Decimal) : Decimal :=
  let digits := (Nat.toDigits 10 d.coefficient).reverse
  let zeros := (digits.takeWhile (· = '0')).length
  if zeros = digits.length then d else ⟨d.coefficient / Nat.pow 10 zeros, d.place + zeros⟩

-- The shortest decimal of a positive finite number `x` that stands for `q`.
def decimal (x : Float) (q : Rat) : Decimal :=
  withoutTrailingZeros (fewestDigits x q (leadingPlace q))

-- Numbers whose leading digit has a place from `positionalFrom` up to, not including,
-- `positionalBelow` are written with a point and no exponent.
structure Layout where
  positionalFrom : Int
  positionalBelow : Int
  exponentDigits : Nat
  wholeSuffix : String
  infinity : String
  nan : String

def padded (width : Nat) (n : Nat) : String :=
  let digits := Nat.repr n
  String.ofList (List.replicate (width - digits.length) '0') ++ digits

def zeros (count : Nat) : String := String.ofList (List.replicate count '0')

-- The digits of a decimal laid out, without a sign.
def Layout.decimalText (layout : Layout) (d : Decimal) : String :=
  let digits := Nat.toDigits 10 d.coefficient
  let lead : Int := d.place + digits.length - 1
  if lead < layout.positionalFrom ∨ layout.positionalBelow ≤ lead then
    let fraction := digits.drop 1
    let point := if fraction.isEmpty then "" else "."
    let sign := if lead < 0 then "-" else "+"
    String.ofList (digits.take 1) ++ point ++ String.ofList fraction ++ "e" ++ sign ++
      padded layout.exponentDigits lead.natAbs
  else if lead < 0 then
    "0." ++ zeros (-lead - 1).toNat ++ String.ofList digits
  else if 0 ≤ d.place then
    String.ofList digits ++ zeros d.place.toNat ++ layout.wholeSuffix
  else
    let whole := (lead + 1).toNat
    String.ofList (digits.take whole) ++ "." ++ String.ofList (digits.drop whole)

def Layout.text (layout : Layout) (x : Float) : String :=
  match Binary64.parts? x with
  | none =>
    if Binary64.isNaN x then layout.nan
    else if x < 0 then "-" ++ layout.infinity else layout.infinity
  | some parts =>
    let sign := if parts.negative then "-" else ""
    let magnitude : Binary64.Parts := { parts with negative := false }
    if magnitude.significand = 0 then sign ++ "0" ++ layout.wholeSuffix
    else sign ++ layout.decimalText (decimal x.abs magnitude.toRat)

end SymbolicArith.Shortest
