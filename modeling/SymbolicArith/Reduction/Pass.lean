import SymbolicArith.Reduction.Combine

-- Greedy passes. The first operand absorbs, from left to right, every later one with which it
-- merges into something lighter than the plain node of the two; then the next operand does the
-- same with what remains. Every accepted merge is recorded.
namespace SymbolicArith

structure MergeStep where
  kind : Kind
  left : Expr
  right : Expr
  result : Expr
  deriving DecidableEq

namespace Engine

variable {m : Type → Type} [Evaluator m]

def merge (engine : Engine m) (op : Operator) (x y : Expr) : m (Option Expr) := do
  let merged ← engine.combine op x y
  return if engine.lighter merged (op.plain x y) then some merged else none

-- The absorbing operand at the end, the operands that it left, and its merges.
structure Absorbed where
  operand : Expr
  rest : List Expr
  steps : List MergeStep

def absorb (engine : Engine m) (op : Operator) (x : Expr) : List Expr → m Absorbed
  | [] => return ⟨x, [], []⟩
  | y :: ys => do
    match ← engine.merge op x y with
    | some merged =>
      let after ← engine.absorb op merged ys
      return { after with steps := ⟨op.kind, x, y, merged⟩ :: after.steps }
    | none =>
      let after ← engine.absorb op x ys
      return { after with rest := y :: after.rest }

-- Each turn settles one operand, so as many turns as there are operands are enough.
def sweep (engine : Engine m) (op : Operator) :
    Nat → List Expr → m (List Expr × List MergeStep)
  | turns + 1, x :: ys => do
    let absorbed ← engine.absorb op x ys
    let (rest, steps) ← engine.sweep op turns absorbed.rest
    return (absorbed.operand :: rest, absorbed.steps ++ steps)
  | _, es => return (es, [])

-- A sum or product of reduced operands, swept once.
def condense (engine : Engine m) (op : Nary) (operands : List Expr) :
    m (Expr × List MergeStep) := do
  let (rest, steps) ← engine.sweep (.nary op) operands.length operands
  return (op.join rest, steps)

-- A power of a reduced base and exponent; if the two merge, only their merger is left.
def condensePower (engine : Engine m) (base exponent : Expr) : m (Expr × List MergeStep) := do
  match ← engine.merge .power base exponent with
  | some merged => return (merged, [⟨.power, base, exponent, merged⟩])
  | none => return (.power base exponent, [])

-- One reduction: the operands first, then a pass over them. Terminals stay as they are.
def reduceStep (engine : Engine m) (e : Expr) : m Expr :=
  match e with
  | .number _ | .symbol _ => return e
  | .nary op operands =>
    remembering engine.config e do
      return (← engine.condense op (← operands.mapM engine.reduce)).1
  | .power base exponent =>
    remembering engine.config e do
      let base ← engine.reduce base
      let exponent ← engine.reduce exponent
      return (← engine.condensePower base exponent).1

mutual

-- A reduction together with the merges of its passes, those of operands before those of their
-- node. The operands are reduced anew and never recalled.
def reduceTraced (engine : Engine m) : Expr → m (Expr × List MergeStep)
  | .number value => return (.number value, [])
  | .symbol name => return (.symbol name, [])
  | .nary op operands => do
    let (reduced, before) ← engine.reduceAllTraced operands
    let (result, steps) ← engine.condense op reduced
    return (result, before ++ steps)
  | .power base exponent => do
    let (base, ofBase) ← engine.reduceTraced base
    let (exponent, ofExponent) ← engine.reduceTraced exponent
    let (result, steps) ← engine.condensePower base exponent
    return (result, ofBase ++ ofExponent ++ steps)

def reduceAllTraced (engine : Engine m) : List Expr → m (List Expr × List MergeStep)
  | [] => return ([], [])
  | e :: es => do
    let (reduced, steps) ← engine.reduceTraced e
    let (rest, later) ← engine.reduceAllTraced es
    return (reduced :: rest, steps ++ later)

end

end Engine

end SymbolicArith
