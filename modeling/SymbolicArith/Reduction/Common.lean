import SymbolicArith.Reduction.Engine

-- Common operands of two nodes of one kind. Each operand of the first looks for an equal among the
-- operands of the second, from a cursor that stays behind the last match and goes back to the start
-- only after a search that found nothing.
namespace SymbolicArith

-- What was passed over, the last of it first, and what is still ahead.
structure Cursor where
  passed : List Expr
  ahead : List Expr

def Cursor.start (es : List Expr) : Cursor := ⟨[], es⟩
def Cursor.all (c : Cursor) : List Expr := c.passed.reverse ++ c.ahead
def Cursor.rewind (c : Cursor) : Cursor := .start c.all

@[simp] theorem Cursor.all_start (es : List Expr) : (Cursor.start es).all = es := rfl
@[simp] theorem Cursor.all_rewind (c : Cursor) : c.rewind.all = c.all := rfl

structure Split where
  common : List Expr
  restX : List Expr
  restY : List Expr

namespace Engine

variable {m : Type → Type} [Evaluator m]

-- The cursor behind the first equal of `x` ahead, which is taken out.
def seek (engine : Engine m) (x : Expr) (passed : List Expr) : List Expr → m (Option Cursor)
  | [] => return none
  | y :: ahead => do
    if ← engine.isEqual x y then return some ⟨passed, ahead⟩
    else engine.seek x (y :: passed) ahead

def split (engine : Engine m) : List Expr → Cursor → m Split
  | [], cursor => return ⟨[], [], cursor.all⟩
  | x :: xs, cursor => do
    match ← engine.seek x cursor.passed cursor.ahead with
    | some behind =>
      let found ← engine.split xs behind
      return { found with common := x :: found.common }
    | none =>
      let found ← engine.split xs cursor.rewind
      return { found with restX := x :: found.restX }

def splitOperands (engine : Engine m) (x y : Expr) : m Split :=
  engine.split x.operands (.start y.operands)

-- Both nodes must be composite and of one kind.
def checkAlike (x y : Expr) : Outcome Unit :=
  if x.isTerminal || y.isTerminal then .failed (.misuse .terminalOperand)
  else if x.kind = y.kind then .done ()
  else .failed (.misuse (.differentKinds x.kind y.kind))

-- The operands two nodes of one kind have in common, and what is left of each.
def findCommon (engine : Engine m) (x y : Expr) : m Split := do
  ofOutcome (checkAlike x y)
  engine.splitOperands x y

end Engine

end SymbolicArith
