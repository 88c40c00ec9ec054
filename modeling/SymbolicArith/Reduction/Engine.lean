import SymbolicArith.Expr.Join
import SymbolicArith.Reduction.Memo

-- Engines. Reduction, settling and equality need one another; an engine holds the three as they are
-- available to the rest, so that every other operation is an ordinary function of an engine.
namespace SymbolicArith

structure Engine (m : Type → Type) where
  config : Config
  reduce : Expr → m Expr
  settle : Expr → m Expr
  isEqual : Expr → Expr → m Bool

namespace Engine

variable {m : Type → Type}

-- The first computation if it has a result, else the second.
def attempt [Monad m] (first : m (Option α)) (second : m α) : m α := do
  match ← first with
  | some result => return result
  | none => second

def weight (engine : Engine m) (e : Expr) : Int := e.weight engine.config

def lighter (engine : Engine m) (x y : Expr) : Bool := engine.weight x < engine.weight y

end Engine

end SymbolicArith
