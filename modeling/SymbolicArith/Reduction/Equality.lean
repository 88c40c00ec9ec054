import SymbolicArith.Reduction.Common

-- Equality up to reduction and commutativity: both sides are reduced until they stop losing weight,
-- and then compared, sums and products as collections without order.
namespace SymbolicArith.Engine

variable {m : Type → Type} [Evaluator m]

-- Reduce again as long as that makes the tree lighter.
def settleStep (engine : Engine m) (e : Expr) : m Expr := do
  let again ← engine.reduce e
  if engine.lighter again e then engine.settle again else return e

def settled (engine : Engine m) (e : Expr) : m Expr := do
  engine.settle (← engine.reduce e)

-- Each operand of the first list takes an equal out of the second, until both are empty.
def pairOff (engine : Engine m) : List Expr → List Expr → m Bool
  | [], ys => return ys.isEmpty
  | x :: xs, ys => do
    match ← engine.seek x [] ys with
    | some cursor => engine.pairOff xs cursor.all
    | none => return false

-- Equality of two settled trees.
def compare (engine : Engine m) : Expr → Expr → m Bool
  | .number a, .number b => return a.equals b
  | .symbol a, .symbol b => return a == b
  | .nary op xs, .nary op' ys => if op = op' then engine.pairOff xs ys else return false
  | .power base exponent, .power base' exponent' => do
    if ← engine.isEqual base base' then engine.isEqual exponent exponent' else return false
  | _, _ => return false

def isEqualStep (engine : Engine m) (x y : Expr) : m Bool := do
  let x ← engine.settled x
  let y ← engine.settled y
  engine.compare x y

end SymbolicArith.Engine
