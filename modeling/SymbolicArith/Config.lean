import SymbolicArith.Failure

-- Configurations: the weights by which trees are compared, and the limits on unrolling and folding
-- powers. The weight of a tree adds up its leaves and its composite nodes.
namespace SymbolicArith

structure Config where
  symbolWeight : Int := 1000
  numberWeight : Int := 1
  nodeWeight : Int := 1
  -- the largest exponent that is unrolled into a product; none is no limit
  maxUnroll : Option Nat := none
  -- the largest size of an exponent with which a power of two numbers is evaluated
  maxFoldExponent : Nat := 1024
  deriving DecidableEq, Hashable

instance : Inhabited Config := ⟨{}⟩

-- A natural number, or the reason why there is none.
def limit? (cause : Invalid) (n : Int) : Except Failure Nat :=
  if n < 0 then .error (.invalid cause) else .ok n.toNat

-- The configuration of these weights and limits, refused if a limit is negative.
def Config.of (symbolWeight numberWeight nodeWeight : Int) (maxUnroll : Option Int)
    (maxFoldExponent : Int) : Except Failure Config := do
  let unroll ← maxUnroll.mapM (limit? .unrollLimit)
  let fold ← limit? .foldLimit maxFoldExponent
  return ⟨symbolWeight, numberWeight, nodeWeight, unroll, fold⟩

mutual

def Expr.weight (config : Config) : Expr → Int
  | .number _ => config.numberWeight
  | .symbol _ => config.symbolWeight
  | .nary _ operands => config.nodeWeight + Expr.weights config operands
  | .power base exponent => config.nodeWeight + (base.weight config + exponent.weight config)

def Expr.weights (config : Config) : List Expr → Int
  | [] => 0
  | e :: es => e.weight config + Expr.weights config es

end

end SymbolicArith
