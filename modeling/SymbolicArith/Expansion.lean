import SymbolicArith.Config
import SymbolicArith.Expr.Join
import SymbolicArith.Outcome

-- Expansion: products are distributed over sums, and powers with small whole exponents are unrolled
-- into products first. A product is distributed over its first sum alone, and each product that
-- comes of it is expanded in turn; the depth bounds how far such expansions nest.
namespace SymbolicArith

-- The terms of the first sum in a list, and the rest of the list.
def firstSum? : List Expr → Option (List Expr × List Expr)
  | [] => none
  | .sum terms :: rest => some (terms, rest)
  | e :: rest => (firstSum? rest).map fun (terms, others) => (terms, e :: others)

-- How often a power with this exponent repeats its base; none if it is not unrolled.
def Config.repetitions? (config : Config) : Expr → Option Nat
  | .number value =>
    match value.integer? with
    | some (.ofNat n) => if config.maxUnroll.all (n ≤ ·) then some n else none
    | _ => none
  | _ => none

namespace Expr

section

-- Expansion as it is available to the rest.
variable (config : Config) (expand : Expr → Outcome Expr)

def distribute : Expr → Outcome Expr
  | .product factors =>
    match firstSum? factors with
    | some (terms, others) => do
      let expanded ← terms.mapM fun term => expand (Nary.product.join (others ++ [term]))
      return Nary.sum.join expanded
    | none => return .product factors
  | e => return e

-- What is left of a node of expanded operands to do.
def multiplyOut : Expr → Outcome Expr
  | .power base exponent =>
    match config.repetitions? exponent with
    | some count => distribute expand (Nary.product.join (List.replicate count base))
    | none => return .power base exponent
  | e => distribute expand e

-- The operands are expanded first. Joined anew they may make a node of another kind, or the only
-- one of them.
def expandStep : Expr → Outcome Expr
  | .number value => return .number value
  | .symbol name => return .symbol name
  | .nary op operands => do
    multiplyOut config expand (op.join (← operands.mapM expand))
  | .power base exponent => do
    let base ← expand base
    let exponent ← expand exponent
    multiplyOut config expand (.power base exponent)

end

-- The expanded form of an expression. It is not reduced.
def expandWithin (config : Config) : Nat → Expr → Outcome Expr
  | 0, _ => .unfinished
  | below + 1, e => expandStep config (expandWithin config below) e

end Expr

end SymbolicArith
