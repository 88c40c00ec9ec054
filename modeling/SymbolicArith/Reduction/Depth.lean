import SymbolicArith.Reduction.Equality
import SymbolicArith.Reduction.Pass

-- Engines of a given depth: each level works with the engine of the level below, and the lowest
-- gives no answer. A computation that finishes at some depth has its answer there.
namespace SymbolicArith.Engine

variable {m : Type → Type} [Evaluator m]

-- The level below is made only when it is called upon.
def ofDepth (config : Config) : Nat → Engine m
  | 0 =>
    { config
      reduce := fun _ => ofOutcome .unfinished
      settle := fun _ => ofOutcome .unfinished
      isEqual := fun _ _ => ofOutcome .unfinished }
  | below + 1 =>
    { config
      reduce := fun e => (ofDepth config below).reduceStep e
      settle := fun e => (ofDepth config below).settleStep e
      isEqual := fun x y => (ofDepth config below).isEqualStep x y }

-- Far beyond any depth that a run could reach in practice.
def depthLimit : Nat := 1000000000000000000

-- The engine of a configuration, for running.
def deep (config : Config) : Engine m := ofDepth config depthLimit

end SymbolicArith.Engine
