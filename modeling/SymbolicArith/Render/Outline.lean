import SymbolicArith.Failure

-- Two plain text forms: an outline with one node a line, operands indented by a tab below their
-- node, and a prefix form such as `(+ x (* 2 y))`. Like the constructor form they are written
-- whole, or not at all where a number has too many digits.
namespace SymbolicArith.Expr

mutual

def outline (indent : String) : Expr → String
  | .number value => indent ++ "number :  " ++ value.text
  | .symbol name => indent ++ "symbol :  " ++ name
  | .nary op operands => indent ++ op.kind.name ++ " :" ++ outlines ("\t" ++ indent) operands
  | .power base exponent =>
    indent ++ "power :\n" ++ outline ("\t" ++ indent) base ++ "\n" ++
      outline ("\t" ++ indent) exponent

def outlines (indent : String) : List Expr → String
  | [] => ""
  | e :: es => "\n" ++ outline indent e ++ outlines indent es

end

mutual

def prefixForm : Expr → String
  | .number value => value.text
  | .symbol name => name
  | .nary op operands => "(" ++ (Operator.nary op).sign ++ prefixForms operands ++ ")"
  | .power base exponent => "(^ " ++ prefixForm base ++ " " ++ prefixForm exponent ++ ")"

def prefixForms : List Expr → String
  | [] => ""
  | e :: es => " " ++ prefixForm e ++ prefixForms es

end

-- A text of the tree under a limit on the digits of its numbers.
def written (digits : Option Nat) (text : Expr → String) (e : Expr) : Except Failure String :=
  if e.fits digits then .ok (text e) else .error .tooManyDigits

end SymbolicArith.Expr
