import SymbolicArith.Value

-- Failures: why an operation has no result, and how it is worded.
namespace SymbolicArith

-- An operation was asked for what it does not do.
inductive Misuse where
  | notAnOperator (kind : Kind)
  | terminalOperand
  | differentKinds (x y : Kind)
  | notPowers
  | notAssembled (kind : Kind)
  | alreadyBuilt
  | powerArity (count : Nat)
  deriving DecidableEq

-- A name or a limit lies outside the values it may take.
inductive Invalid where
  | kindName (name : String)
  | traceStyle (name : String)
  | unrollLimit
  | foldLimit
  deriving DecidableEq

inductive Failure where
  | notConvertible (value : Value)
  | misuse (cause : Misuse)
  | invalid (cause : Invalid)
  -- an arithmetic operator met an operand that is no expression
  | unsupportedOperand
  -- the operands of a node were looked for in a value that has no items
  | noItems
  -- an exact number too large for a float met one
  | overflow
  -- an operand was asked for that is not there
  | missingOperand
  -- a recorded step has no operator sign to be written with
  | unsignedStep
  -- an integer has more digits than may be written
  | tooManyDigits

def Misuse.message : Misuse → String
  | .notAnOperator kind => "combine needs an operator kind, got " ++ kind.name
  | .terminalOperand => "find_common requires two non-terminal nodes"
  | .differentKinds x y =>
    "find_common requires nodes of one kind, got " ++ x.name ++ " and " ++ y.name
  | .notPowers => "factor_out_power requires two Power nodes"
  | .notAssembled kind => "NodeBuilder only assembles sums and products, not " ++ kind.name
  | .alreadyBuilt => "NodeBuilder was already built"
  | .powerArity count =>
    "Power takes exactly (base, exponent), got " ++ toString count ++ " nodes"

def Invalid.message : Invalid → String
  | .kindName name => Quoted.encode name ++ " is not a valid Kind"
  | .traceStyle name =>
    "Unknown trace style: " ++ name ++ ". Valid options: verbose, compact, chain"
  | .unrollLimit => "max_unroll must be non-negative or None"
  | .foldLimit => "max_fold_exponent must be non-negative"

-- The wording of a failure, where it has one.
def Failure.message? : Failure → Option String
  | .notConvertible value =>
    some ("Cannot convert " ++ value.form ++ ", a '" ++ value.typeName ++ "', to a node")
  | .misuse cause => some cause.message
  | .invalid cause => some cause.message
  | .unsupportedOperand | .noItems | .overflow | .missingOperand | .unsignedStep
  | .tooManyDigits => none

-- What comes of a failure under a limit on digits: a refusal shows the value that it refuses.
def Failure.raised (digits : Option Nat) : Failure → Failure
  | .notConvertible value =>
    if value.fits digits then .notConvertible value else .tooManyDigits
  | cause => cause

end SymbolicArith
