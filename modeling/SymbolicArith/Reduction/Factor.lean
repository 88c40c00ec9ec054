import SymbolicArith.Reduction.Common

-- Shared factors of two operands: a common factor of two terms of a sum, a common base of two
-- factors of a product. A factored form is offered only if what is left over shrinks.
namespace SymbolicArith.Engine

variable {m : Type → Type} [Evaluator m]

-- An expression taken as a product or as a power: multiplied by 1, or raised to 1.
def viewedAs (op : Operator) (e : Expr) : Expr :=
  if e.kind = op.kind then e else op.plain e .one

def factorSum (engine : Engine m) (x y : Expr) : m (Option Expr) := do
  let found ← engine.splitOperands x y
  if found.common.isEmpty then return none
  else
    let rests := Nary.sum.join [Nary.product.join found.restX, Nary.product.join found.restY]
    let reduced ← engine.reduce rests
    if engine.lighter reduced rests then
      return some (← engine.reduce (Nary.product.join [reduced, Nary.product.join found.common]))
    else return none

-- Two operands of a sum, nodes of one kind, as one product of what they have in common.
def factorOutSum (engine : Engine m) (x y : Expr) : m (Option Expr) := do
  ofOutcome (checkAlike x y)
  engine.factorSum x y

-- Two powers of equal bases become one power of the reduced sum of their exponents.
def mergePowers (engine : Engine m) (base exponent otherBase otherExponent : Expr) :
    m (Option Expr) := do
  if ← engine.isEqual base otherBase then
    let exponents := Nary.sum.join [exponent, otherExponent]
    let reduced ← engine.reduce exponents
    return if engine.lighter reduced exponents then some (.power base reduced) else none
  else return none

-- Two powers of equal bases as one power.
def factorOutPower (engine : Engine m) (x y : Expr) : m (Option Expr) :=
  match x, y with
  | .power base exponent, .power otherBase otherExponent =>
    engine.mergePowers base exponent otherBase otherExponent
  | _, _ => ofOutcome (.failed (.misuse .notPowers))

-- Two operands without structure to share still merge if they are equal.
def ifEqual (engine : Engine m) (x y result : Expr) : m (Option Expr) := do
  return if ← engine.isEqual x y then some result else none

-- The factored form of two operands of a sum or product, where there is one.
def factor (engine : Engine m) (op : Operator) (x y : Expr) : m (Option Expr) :=
  match op with
  | .sum =>
    if x.kind ≠ .product ∧ y.kind ≠ .product then
      engine.ifEqual x y (Nary.product.join [.two, x])
    else engine.factorSum (viewedAs .product x) (viewedAs .product y)
  | .product =>
    if x.kind ≠ .power ∧ y.kind ≠ .power then engine.ifEqual x y (.power x .two)
    else engine.factorOutPower (viewedAs .power x) (viewedAs .power y)
  | .power => return none

end SymbolicArith.Engine
