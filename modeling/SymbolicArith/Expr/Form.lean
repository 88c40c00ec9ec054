import SymbolicArith.Expr.Basic
import SymbolicArith.Text.Quoted

-- Constructor form: an expression written as nested constructors, such as
-- `Sum(Symbol('x'), Number(1))`.
namespace SymbolicArith.Expr

mutual

def form : Expr → String
  | .number value => "Number(" ++ value.form ++ ")"
  | .symbol name => "Symbol(" ++ Quoted.encode name ++ ")"
  | .nary op operands => op.kind.label ++ "(" ++ ", ".intercalate (forms operands) ++ ")"
  | .power base exponent => "Power(" ++ base.form ++ ", " ++ exponent.form ++ ")"

def forms : List Expr → List String
  | [] => []
  | e :: es => e.form :: forms es

end

mutual

-- Whether the numbers in a text of the tree are written under a limit on their digits.
def fits (digits : Option Nat) : Expr → Bool
  | .number value => value.fits digits
  | .symbol _ => true
  | .nary _ operands => allFit digits operands
  | .power base exponent => base.fits digits && exponent.fits digits

def allFit (digits : Option Nat) : List Expr → Bool
  | [] => true
  | e :: es => e.fits digits && allFit digits es

end

end SymbolicArith.Expr
