import SymbolicArith.Expansion
import SymbolicArith.Expr.Build
import SymbolicArith.Trace

-- The operations on offered values: each operand is converted into an expression where the
-- operation first needs it, so that of two faults the earlier one is told.
namespace SymbolicArith

variable {m : Type → Type} [Evaluator m]

namespace Engine

-- Only operators combine, which is checked before the operands are converted.
def combineValues (engine : Engine m) (kind : Kind) (x y : Value) : m Expr :=
  match kind with
  | .composite op => do
    let x ← Evaluator.ofExcept (Expr.ofValue x)
    let y ← Evaluator.ofExcept (Expr.ofValue y)
    engine.combine op x y
  | terminal => ofOutcome (.failed (.misuse (.notAnOperator terminal)))

def reduceValue (engine : Engine m) (value : Value) : m Expr := do
  engine.reduce (← Evaluator.ofExcept (Expr.ofValue value))

def traceValue (engine : Engine m) (value : Value) : m (Expr × Trace) := do
  engine.trace (← Evaluator.ofExcept (Expr.ofValue value))

def expandValue (engine : Engine m) (value : Value) : m Expr := do
  let e ← Evaluator.ofExcept (Expr.ofValue value)
  ofOutcome (e.expandWithin engine.config depthLimit)

-- The first operand is settled before the second is converted.
def isEqualValues (engine : Engine m) (x y : Value) : m Bool := do
  let x ← engine.settled (← Evaluator.ofExcept (Expr.ofValue x))
  let y ← engine.settled (← Evaluator.ofExcept (Expr.ofValue y))
  engine.compare x y

end Engine

end SymbolicArith
