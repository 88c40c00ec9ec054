import SymbolicArith.Render.Infix

-- Traces: the merges of one reduction in the order in which they were accepted, with the tree
-- before and the tree after, and the texts that tell them.
namespace SymbolicArith

structure Trace where
  initial : Option Expr
  steps : List MergeStep
  final : Option Expr

-- A step in texts.
structure StepRecord where
  kind : String
  left : String
  right : String
  result : String

structure TraceRecord where
  initial : Option String
  final : Option String
  steps : List StepRecord

inductive TraceStyle where
  | verbose
  | compact
  | chain
  deriving DecidableEq

def TraceStyle.parse : String → Except Failure TraceStyle
  | "verbose" => .ok .verbose
  | "compact" => .ok .compact
  | "chain" => .ok .chain
  | name => .error (.invalid (.traceStyle name))

namespace MergeStep

variable {m : Type → Type} [Evaluator m]

def sign : Kind → Outcome String
  | .composite op => .done op.sign
  | .number | .symbol => .failed .unsignedStep

-- A step on a line: its kind, the two operands under the operator, and the result.
def text (digits : Option Nat) (step : MergeStep) : m String := do
  let operator ← ofOutcome (sign step.kind)
  let left ← step.left.infixText digits
  let right ← step.right.infixText digits
  let result ← step.result.infixText digits
  return step.kind.name ++ ": (" ++ left ++ ") " ++ operator ++ " (" ++ right ++ ") → " ++ result

def record (digits : Option Nat) (step : MergeStep) : m StepRecord := do
  let left ← step.left.infixText digits
  let right ← step.right.infixText digits
  let result ← step.result.infixText digits
  return ⟨step.kind.name, left, right, result⟩

end MergeStep

namespace Trace

variable {m : Type → Type} [Evaluator m]

def empty : Trace := ⟨none, [], none⟩

def add (trace : Trace) (step : MergeStep) : Trace := { trace with steps := trace.steps ++ [step] }

-- A tree that was never set is told as missing.
def endText (digits : Option Nat) : Option Expr → m String
  | some e => e.infixText digits
  | none => return "None"

def numbered (digits : Option Nat) (position : Nat) : List MergeStep → m (List String)
  | [] => return []
  | step :: rest => do
    let line := "  " ++ toString position ++ ". " ++ (← step.text digits)
    return line :: (← numbered digits (position + 1) rest)

def verbose (digits : Option Nat) (trace : Trace) : m String := do
  let first := "Initial: " ++ (← endText digits trace.initial)
  let lines ← numbered digits 1 trace.steps
  let last := "Final: " ++ (← endText digits trace.final)
  return "\n".intercalate (first :: lines ++ [last])

def compact (digits : Option Nat) (trace : Trace) : m String := do
  let initial ← endText digits trace.initial
  let final ← endText digits trace.final
  return initial ++ " --[" ++ toString trace.steps.length ++ " merges]--> " ++ final

def chainLink (digits : Option Nat) (step : MergeStep) : m String := do
  return "  --(" ++ step.kind.name ++ ")--> " ++ (← step.result.infixText digits)

def chain (digits : Option Nat) (trace : Trace) : m String := do
  let first ← endText digits trace.initial
  let links ← trace.steps.mapM (chainLink digits)
  let last := "= " ++ (← endText digits trace.final)
  return "\n".intercalate (first :: links ++ [last])

def format (digits : Option Nat) (trace : Trace) (style : TraceStyle := .verbose) : m String :=
  match style with
  | .verbose => trace.verbose digits
  | .compact => trace.compact digits
  | .chain => trace.chain digits

def record (digits : Option Nat) (trace : Trace) : m TraceRecord := do
  let initial ← trace.initial.mapM (·.infixText digits)
  let final ← trace.final.mapM (·.infixText digits)
  let steps ← trace.steps.mapM (·.record digits)
  return ⟨initial, final, steps⟩

def countKind (kind : Kind) : List (Kind × Nat) → List (Kind × Nat)
  | [] => [(kind, 1)]
  | (known, count) :: rest =>
    if known = kind then (known, count + 1) :: rest else (known, count) :: countKind kind rest

-- How many merges of each kind there were, the kinds in the order in which they first occur.
def kindCounts (trace : Trace) : List (Kind × Nat) :=
  trace.steps.foldl (fun counts step => countKind step.kind counts) []

-- The summary names the kinds in alphabetical order.
def summary (trace : Trace) : String :=
  if trace.steps.isEmpty then "No merges performed"
  else
    let counts := trace.kindCounts.mergeSort fun a b => decide (a.1.name ≤ b.1.name)
    let details := counts.map fun (kind, count) => toString count ++ " " ++ kind.name
    toString trace.steps.length ++ " merges (" ++ ", ".intercalate details ++ ")"

end Trace

-- A reduction with its trace.
def Engine.trace [Evaluator m] (engine : Engine m) (e : Expr) : m (Expr × Trace) := do
  let (result, steps) ← engine.reduceTraced e
  return (result, ⟨some e, steps, some result⟩)

end SymbolicArith
