import SymbolicArith.Reduction.Factor

-- Combining two operands under an operator. Two numbers fold; then the rules for 0 and 1 are
-- tried in their order; then a factored form is looked for; and at last the plain node is left.
namespace SymbolicArith

-- If the tested operand is the literal, the node is the result.
structure Rule where
  tested : Expr
  literal : Int
  result : Expr

def rules : Operator → Expr → Expr → List Rule
  | .sum, x, y => [⟨x, 0, y⟩, ⟨y, 0, x⟩]
  | .product, x, y => [⟨x, 0, .zero⟩, ⟨y, 0, .zero⟩, ⟨x, 1, y⟩, ⟨y, 1, x⟩]
  | .power, x, y => [⟨y, 0, .one⟩, ⟨x, 0, .zero⟩, ⟨x, 1, .one⟩, ⟨y, 1, x⟩]

-- The value of an operator on two numbers; none where it stays symbolic.
def foldLiterals (config : Config) (op : Operator) (x y : Literal) : Outcome (Option Literal) :=
  match op with
  | .sum => some <$> Outcome.ofOption .overflow (x.add? y)
  | .product => some <$> Outcome.ofOption .overflow (x.mul? y)
  | .power => .done (Literal.foldPower? config.maxFoldExponent x y)

namespace Engine

variable {m : Type → Type} [Evaluator m]

def foldNumbers (engine : Engine m) (op : Operator) (x y : Expr) : m (Option Expr) :=
  match x, y with
  | .number a, .number b => do
    return (← ofOutcome (foldLiterals engine.config op a b)).map .number
  | _, _ => return none

-- A terminal is compared as it stands, anything else up to reduction.
def isLiteral (engine : Engine m) (e : Expr) (n : Int) : m Bool :=
  match e with
  | .number value => return value.equalsInt n
  | .symbol _ => return false
  | composite => engine.isEqual composite (.ofInt n)

def firstRule (engine : Engine m) : List Rule → m (Option Expr)
  | [] => return none
  | rule :: rest => do
    if ← engine.isLiteral rule.tested rule.literal then return some rule.result
    else engine.firstRule rest

-- The operator over two operands, simplified where a rule or a factor allows it.
def combine (engine : Engine m) (op : Operator) (x y : Expr) : m Expr :=
  attempt (engine.foldNumbers op x y) <|
  attempt (engine.firstRule (rules op x y)) <|
  attempt (engine.factor op x y) <|
  return op.plain x y

end Engine

end SymbolicArith
