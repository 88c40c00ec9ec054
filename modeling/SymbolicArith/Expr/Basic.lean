import SymbolicArith.Number.Literal

-- Arithmetic expressions: numbers, symbols, sums and products of any number of operands, and powers
-- of a base and an exponent. Nothing here asks a sum or product to be flat.
namespace SymbolicArith

-- The operators that take any number of operands.
inductive Nary where
  | sum
  | product
  deriving DecidableEq, Repr

inductive Operator where
  | nary (op : Nary)
  | power
  deriving DecidableEq, Repr

@[match_pattern] abbrev Operator.sum : Operator := .nary .sum
@[match_pattern] abbrev Operator.product : Operator := .nary .product

inductive Kind where
  | number
  | symbol
  | composite (op : Operator)
  deriving DecidableEq, Repr

@[match_pattern] abbrev Kind.sum : Kind := .composite .sum
@[match_pattern] abbrev Kind.product : Kind := .composite .product
@[match_pattern] abbrev Kind.power : Kind := .composite .power

inductive Expr where
  | number (value : Literal)
  | symbol (name : String)
  | nary (op : Nary) (operands : List Expr)
  | power (base exponent : Expr)

@[match_pattern] abbrev Expr.sum (terms : List Expr) : Expr := .nary .sum terms
@[match_pattern] abbrev Expr.product (factors : List Expr) : Expr := .nary .product factors

namespace Kind

def all : List Kind := [.number, .symbol, .sum, .product, .power]

def name : Kind → String
  | .number => "number"
  | .symbol => "symbol"
  | .sum => "sum"
  | .product => "product"
  | .power => "power"

def label : Kind → String
  | .number => "Number"
  | .symbol => "Symbol"
  | .sum => "Sum"
  | .product => "Product"
  | .power => "Power"

def named? (name : String) : Option Kind := all.find? (·.name == name)

def isTerminal : Kind → Bool
  | .number | .symbol => true
  | .composite _ => false

end Kind

-- The value of a sum or product without operands.
def Nary.identity : Nary → Int
  | .sum => 0
  | .product => 1

def Nary.kind (op : Nary) : Kind := .composite (.nary op)
def Operator.kind (op : Operator) : Kind := .composite op

def Operator.sign : Operator → String
  | .sum => "+"
  | .product => "*"
  | .power => "^"

namespace Expr

def ofInt (n : Int) : Expr := .number (.whole n)

def zero : Expr := ofInt 0
def one : Expr := ofInt 1
def two : Expr := ofInt 2
def minusOne : Expr := ofInt (-1)

instance : Inhabited Expr := ⟨zero⟩

-- Induction on trees: what holds of all operands of a node holds of the node.
@[induction_eliminator]
theorem induct {motive : Expr → Prop} (number : ∀ value, motive (.number value))
    (symbol : ∀ name, motive (.symbol name))
    (nary : ∀ op operands, (∀ e ∈ operands, motive e) → motive (.nary op operands))
    (power : ∀ base exponent, motive base → motive exponent → motive (.power base exponent))
    (e : Expr) : motive e :=
  @Expr.rec motive (fun es => ∀ e ∈ es, motive e)
    number symbol nary power
    (fun _ member => by cases member)
    (fun _ _ first rest _ member => by
      cases member with
      | head => exact first
      | tail _ later => exact rest _ later)
    e

def kind : Expr → Kind
  | .number _ => .number
  | .symbol _ => .symbol
  | .nary op _ => op.kind
  | .power _ _ => .power

def operands : Expr → List Expr
  | .number _ | .symbol _ => []
  | .nary _ operands => operands
  | .power base exponent => [base, exponent]

def isTerminal (e : Expr) : Bool := e.kind.isTerminal

mutual

def decideEq : (x y : Expr) → Decidable (x = y)
  | .number a, .number b => decidable_of_iff (a = b) (by simp)
  | .symbol a, .symbol b => decidable_of_iff (a = b) (by simp)
  | .nary op xs, .nary op' ys =>
    if sameOp : op = op' then
      match decideEqAll xs ys with
      | isTrue equal => isTrue (by rw [sameOp, equal])
      | isFalse differ => isFalse (by simp [differ])
    else isFalse (by simp [sameOp])
  | .power a b, .power c d =>
    match decideEq a c with
    | isFalse differ => isFalse (by simp [differ])
    | isTrue equal =>
      match decideEq b d with
      | isTrue equal' => isTrue (by rw [equal, equal'])
      | isFalse differ => isFalse (by simp [differ])
  | .number _, .symbol _ | .number _, .nary _ _ | .number _, .power _ _ => isFalse (by simp)
  | .symbol _, .number _ | .symbol _, .nary _ _ | .symbol _, .power _ _ => isFalse (by simp)
  | .nary _ _, .number _ | .nary _ _, .symbol _ | .nary _ _, .power _ _ => isFalse (by simp)
  | .power _ _, .number _ | .power _ _, .symbol _ | .power _ _, .nary _ _ => isFalse (by simp)

def decideEqAll : (xs ys : List Expr) → Decidable (xs = ys)
  | [], [] => isTrue rfl
  | [], _ :: _ => isFalse (by simp)
  | _ :: _, [] => isFalse (by simp)
  | x :: xs, y :: ys =>
    match decideEq x y with
    | isFalse differ => isFalse (by simp [differ])
    | isTrue equal =>
      match decideEqAll xs ys with
      | isTrue equal' => isTrue (by rw [equal, equal'])
      | isFalse differ => isFalse (by simp [differ])

end

instance : DecidableEq Expr := decideEq

mutual

def hashCode : Expr → UInt64
  | .number value => mixHash 3 (hash value)
  | .symbol name => mixHash 5 (hash name)
  | .nary .sum operands => mixHash 7 (hashAll operands)
  | .nary .product operands => mixHash 11 (hashAll operands)
  | .power base exponent => mixHash 13 (mixHash base.hashCode exponent.hashCode)

def hashAll : List Expr → UInt64
  | [] => 17
  | e :: es => mixHash e.hashCode (hashAll es)

end

instance : Hashable Expr := ⟨hashCode⟩

mutual

-- Structural sameness: one shape, the same symbols, and equal numbers of one type. It differs
-- from equality on floats only: the two zeros are the same, and NaN is not the same as itself.
def same : Expr → Expr → Bool
  | .number a, .number b => a.same b
  | .symbol a, .symbol b => a == b
  | .nary op xs, .nary op' ys => decide (op = op') && sameAll xs ys
  | .power a b, .power c d => same a c && same b d
  | _, _ => false

def sameAll : List Expr → List Expr → Bool
  | [], [] => true
  | x :: xs, y :: ys => same x y && sameAll xs ys
  | _, _ => false

end

-- For each expression the place of the first one that is the same, which may be itself.
def firstPlaces (es : List Expr) : List Nat :=
  es.zipIdx.map fun (e, place) => (es.take place).findIdx (·.same e)

end Expr

end SymbolicArith
