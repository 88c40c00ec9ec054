import SymbolicArith.Expr.Basic

-- Flat sums and products. Joining splices an operand of the same operator, one level deep, and
-- never leaves a sum or product of fewer than two operands.
namespace SymbolicArith

-- What an operand contributes to a sum or product.
def Expr.spliced (op : Nary) : Expr → List Expr
  | .nary own operands => if own = op then operands else [.nary own operands]
  | e => [e]

-- The operands as one expression: none is the identity of the operator, one stands alone.
def Nary.collect (op : Nary) : List Expr → Expr
  | [] => .ofInt op.identity
  | [e] => e
  | operands => .nary op operands

def Nary.join (op : Nary) (es : List Expr) : Expr := op.collect (es.flatMap (·.spliced op))

namespace Operator

-- The node of an operator over two operands, with nothing simplified.
def plain : Operator → Expr → Expr → Expr
  | .nary op, x, y => op.join [x, y]
  | .power, x, y => .power x y

end Operator

end SymbolicArith
