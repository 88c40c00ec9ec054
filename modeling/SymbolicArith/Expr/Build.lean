import SymbolicArith.Expr.Assembly

-- Building expressions from offered values. Nothing is simplified: the operators only join, negate
-- and nest. A value that cannot become an expression is refused with the value itself.
namespace SymbolicArith

def Value.literal? : Value → Option Literal
  | .whole n => some (.whole n)
  -- a whole ratio becomes an integer
  | .ratio q => some (.exact q)
  | .real x => some (.float x)
  | _ => none

-- The value that a number stands for.
def Value.ofLiteral : Literal → Value
  | .whole n => .whole n
  | .ratio q => .ratio q
  | .float x => .real x

def Kind.parse (name : String) : Except Failure Kind :=
  match named? name with
  | some kind => .ok kind
  | none => .error (.invalid (.kindName name))

namespace Expr

-- The value that a terminal holds; other nodes hold none.
def held : Expr → Value
  | .number value => .ofLiteral value
  | .symbol name => .text name
  | .nary _ _ | .power _ _ => .nothing

mutual

-- The same tree built anew. Trees are values, so that operations take their operands uncopied.
def copy : Expr → Expr
  | .number value => .number value
  | .symbol name => .symbol name
  | .nary op operands => .nary op (copyAll operands)
  | .power base exponent => .power base.copy exponent.copy

def copyAll : List Expr → List Expr
  | [] => []
  | e :: es => e.copy :: copyAll es

end

-- Negation flips the sign of a number, and multiplies anything else by -1.
def neg : Expr → Expr
  | .number value => .number value.neg
  | e => Nary.product.join [minusOne, e]

def add (x y : Expr) : Expr := Nary.sum.join [x, y]
def sub (x y : Expr) : Expr := Nary.sum.join [x, y.neg]
def mul (x y : Expr) : Expr := Nary.product.join [x, y]
def div (x y : Expr) : Expr := Nary.product.join [x, .power y minusOne]

def ofNumber (value : Value) : Except Failure Expr :=
  match value.literal? with
  | some literal => .ok (.number literal)
  | none => .error (.notConvertible value)

def ofName : Value → Except Failure Expr
  | .text name => if name.isEmpty then .error (.notConvertible (.text name)) else .ok (.symbol name)
  | value => .error (.notConvertible value)

-- The expression a value stands for: a tree itself, a real number, or a non-empty name.
def ofValue : Value → Except Failure Expr
  | .tree e => .ok e
  | .text name => ofName (.text name)
  | value => ofNumber value

-- The operands of an operator are converted from left to right.
def both (combine : Expr → Expr → Expr) (x y : Value) : Except Failure Expr := do
  let first ← ofValue x
  let second ← ofValue y
  return combine first second

def addValues : Value → Value → Except Failure Expr := both add
def subValues : Value → Value → Except Failure Expr := both sub
def mulValues : Value → Value → Except Failure Expr := both mul
def powerValues : Value → Value → Except Failure Expr := both .power
def negValue (x : Value) : Except Failure Expr := return (← ofValue x).neg

-- A division converts its divisor first.
def divValues (x y : Value) : Except Failure Expr :=
  both (fun divisor dividend => dividend.div divisor) y x

def joinValues (op : Nary) (values : List Value) : Except Failure Expr := do
  return op.join (← values.mapM ofValue)

def tree : Value → Except Failure Expr
  | .tree e => .ok e
  | value => .error (.notConvertible value)

def powerOfParts (parts : List Value) : Except Failure Expr :=
  match parts with
  | [base, exponent] => do
    let base ← tree base
    let exponent ← tree exponent
    return .power base exponent
  | parts => .error (.misuse (.powerArity parts.length))

-- The node of an operator over finished trees.
def compose : Operator → List Value → Except Failure Expr
  | .nary op, parts => do return (← (← Assembly.start op.kind parts).build).1
  | .power, parts => powerOfParts parts

-- A node of the given kind: from a literal for a terminal, from the items of a sequence otherwise.
def make : Kind → Value → Except Failure Expr
  | .number, payload => ofNumber payload
  | .symbol, payload => ofName payload
  | .composite op, payload =>
    match payload.items? with
    | some parts => compose op parts
    | none => .error .noItems

-- The result of an arithmetic operator, for which an operand that is no expression is of an
-- unsupported type, if it could be shown to be none.
def asOperator (digits : Option Nat) : Except Failure Expr → Except Failure Expr
  | .ok e => .ok e
  | .error cause =>
    match cause.raised digits with
    | .notConvertible _ => .error .unsupportedOperand
    | cause => .error cause

end Expr

-- How the collection of these constructions presents itself.
def builderForm : String := "E (expression builder)"

end SymbolicArith
