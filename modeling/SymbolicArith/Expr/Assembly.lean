import SymbolicArith.Expr.Join
import SymbolicArith.Failure

-- Assemblies: a sum or product put together operand by operand at either end, and built once.
namespace SymbolicArith

structure Assembly where
  op : Nary
  operands : List Expr
  built : Bool

namespace Assembly

def empty (op : Nary) : Assembly := ⟨op, [], false⟩

def size (a : Assembly) : Nat := a.operands.length

-- Whether the assembly is still open is asked before what is offered.
def offered (a : Assembly) (value : Value) : Except Failure (List Expr) :=
  if a.built then .error (.misuse .alreadyBuilt)
  else
    match value with
    | .tree e => .ok (e.spliced a.op)
    | other => .error (.notConvertible other)

def append (a : Assembly) (value : Value) : Except Failure Assembly := do
  return { a with operands := a.operands ++ (← a.offered value) }

def prepend (a : Assembly) (value : Value) : Except Failure Assembly := do
  return { a with operands := (← a.offered value) ++ a.operands }

-- Append the values in order up to the first that fails, and keep what went before it.
def extend (a : Assembly) : List Value → Assembly × Option Failure
  | [] => (a, none)
  | value :: rest =>
    match a.append value with
    | .ok grown => grown.extend rest
    | .error cause => (a, some cause)

def build (a : Assembly) : Except Failure (Expr × Assembly) :=
  if a.built then .error (.misuse .alreadyBuilt)
  else .ok (a.op.collect a.operands, { a with built := true })

-- A fresh assembly that holds the values; only sums and products are assembled.
def start (kind : Kind) (values : List Value) : Except Failure Assembly :=
  match kind with
  | .composite (.nary op) =>
    match (empty op).extend values with
    | (a, none) => .ok a
    | (_, some cause) => .error cause
  | other => .error (.misuse (.notAssembled other))

-- What may be asked of an assembly.
inductive Step where
  | append (value : Value)
  | prepend (value : Value)
  | extend (values : List Value)
  | build

-- An answer is a failure, or what was built if something was.
abbrev Answer := Except Failure (Option Expr)

def kept (a : Assembly) : Except Failure (Option Expr × Assembly) → Answer × Assembly
  | .ok (built, next) => (.ok built, next)
  | .error cause => (.error cause, a)

-- A step that fails leaves the assembly as it was, but for what an extension appended before.
def perform (a : Assembly) : Step → Answer × Assembly
  | .append value => a.kept (return (none, ← a.append value))
  | .prepend value => a.kept (return (none, ← a.prepend value))
  | .extend values =>
    match a.extend values with
    | (grown, none) => (.ok none, grown)
    | (grown, some cause) => (.error cause, grown)
  | .build => a.kept do
    let (e, closed) ← a.build
    return (some e, closed)

-- Each answer with the assembly as it then is; a failure does not stop the run.
def run (a : Assembly) : List Step → List (Answer × Assembly)
  | [] => []
  | step :: rest =>
    let (answer, next) := a.perform step
    (answer, next) :: next.run rest

def form (a : Assembly) : String :=
  let state := if a.built then "built" else "open"
  "NodeBuilder(" ++ a.op.kind.name ++ ", " ++ toString a.size ++ " children, " ++ state ++ ")"

end Assembly

end SymbolicArith
