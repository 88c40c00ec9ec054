import SymbolicArith.Reduction.Depth

-- Infix text: `2x + 1`, `x - 3y`, `-(x + 1)`, `(a + b)^2`. A coefficient stands directly before
-- what it multiplies, and so do distinct factors that are not numbers; a negative term is
-- subtracted. There is no text where a number has more digits than may be written.
namespace SymbolicArith

namespace Expr

def isNegativeNumber : Expr → Bool
  | .number value => value.isNegative
  | _ => false

def isNumber : Expr → Bool
  | .number _ => true
  | _ => false

def isSum : Expr → Bool
  | .sum _ => true
  | _ => false

-- A negative number, or a product led by one; a product must have a leading factor.
def isNegativeTerm : Expr → Outcome Bool
  | .number value => .done value.isNegative
  | .product [] => .failed .missingOperand
  | .product (first :: _) => .done first.isNegativeNumber
  | _ => .done false

end Expr

namespace Infix

def parenthesised (wrapped : Bool) (text : String) : String :=
  if wrapped then "(" ++ text ++ ")" else text

-- The first minus sign is taken out: a subtraction already says it.
def withoutMinus (text : String) : String := String.ofList (text.toList.erase '-')

-- How a factor is written and joined to the factor that follows.
inductive Junction where
  | times
  | adjacent
  -- a coefficient of -1 shrinks to its sign
  | minus
  deriving DecidableEq

variable {m : Type → Type} [Evaluator m]

-- Numbers other than 1 stand directly before a factor that is no number, and so do factors that
-- are no numbers unless they are equal.
def junction (engine : Engine m) (factor following : Expr) : m Junction := do
  if following.isNumber then return .times
  else
    match factor with
    | .number value =>
      return if value.equalsInt 1 then .times
        else if value.equalsInt (-1) then .minus else .adjacent
    | factor => return if ← engine.isEqual factor following then .times else .adjacent

def factorText (leading : Bool) (factor : Expr) (text : String) : String :=
  parenthesised (factor.isSum || (!leading && factor.isNegativeNumber)) text

-- A number under the limit on the digits of integers, none where there is no limit.
def numberText (digits : Option Nat) (value : Literal) : Outcome String :=
  if value.fits digits then .done value.text else .failed .tooManyDigits

mutual

def text (digits : Option Nat) (engine : Engine m) : Expr → m String
  | .number value => ofOutcome (numberText digits value)
  | .symbol name => return name
  | .sum [] => return ""
  | .sum (first :: rest) => return (← text digits engine first) ++ (← laterTerms digits engine rest)
  | .product factors => factorsText digits engine true factors
  | .power base exponent => do
    let baseText ← text digits engine base
    let exponentText ← text digits engine exponent
    return parenthesised (!base.isTerminal) baseText ++ "^" ++
      parenthesised (!exponent.isTerminal) exponentText

-- The sign of a term is looked at before the term is written.
def laterTerms (digits : Option Nat) (engine : Engine m) : List Expr → m String
  | [] => return ""
  | term :: rest => do
    let negative ← ofOutcome term.isNegativeTerm
    let termText ← text digits engine term
    let joined := if negative then " - " ++ withoutMinus termText else " + " ++ termText
    return joined ++ (← laterTerms digits engine rest)

def factorsText (digits : Option Nat) (engine : Engine m) (leading : Bool) : List Expr → m String
  | [] => return ""
  | [factor] => return factorText leading factor (← text digits engine factor)
  | factor :: following :: rest => do
    let written := factorText leading factor (← text digits engine factor)
    let joined ← match ← junction engine factor following with
      | .times => pure (written ++ " * ")
      | .adjacent => pure written
      | .minus => pure "-"
    return joined ++ (← factorsText digits engine false (following :: rest))

end

end Infix

-- The infix text of an expression; equality of factors is decided under the default weights.
def Expr.infixText [Evaluator m] (digits : Option Nat) (e : Expr) : m String :=
  Infix.text digits (Engine.deep {}) e

end SymbolicArith
