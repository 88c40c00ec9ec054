import SymbolicArith.Config
import SymbolicArith.Outcome
import Std.Data.HashMap

-- Where reductions run. An evaluator carries outcomes and may recall the reduction of a tree
-- under a configuration instead of computing it again. The plain evaluator recalls nothing; the
-- memoised one keeps a table, from which entries may be lost at any time.
namespace SymbolicArith

class Evaluator (m : Type → Type) extends Monad m where
  ofOutcome : Outcome α → m α
  remembering : Config → Expr → m Expr → m Expr

export Evaluator (ofOutcome remembering)

def Evaluator.ofExcept [Evaluator m] (result : Except Failure α) : m α :=
  ofOutcome (.ofExcept result)

instance : Evaluator Outcome where
  ofOutcome := id
  remembering _ _ compute := compute

structure Memo where
  entries : Std.HashMap (Config × Expr) Expr
  lookups : Nat
  -- whether the entry of a key is still kept when the n-th lookup is made
  keeps : Nat → Config × Expr → Bool

namespace Memo

def empty (keeps : Nat → Config × Expr → Bool) : Memo := ⟨∅, 0, keeps⟩

def find? (memo : Memo) (key : Config × Expr) : Option Expr :=
  if memo.keeps memo.lookups key then memo.entries[key]? else none

def insert (memo : Memo) (key : Config × Expr) (reduced : Expr) : Memo :=
  { memo with entries := memo.entries.insert key reduced }

def clear (memo : Memo) : Memo := { memo with entries := ∅ }

-- A memo that loses nothing.
def lasting : Memo := empty fun _ _ => true

end Memo

abbrev Memoised := StateT Memo Outcome

namespace Memoised

def lookup (key : Config × Expr) : Memoised (Option Expr) := fun memo =>
  .done (memo.find? key, { memo with lookups := memo.lookups + 1 })

def remembering (config : Config) (e : Expr) (compute : Memoised Expr) : Memoised Expr := do
  match ← lookup (config, e) with
  | some reduced => return reduced
  | none =>
    let reduced ← compute
    modify (·.insert (config, e) reduced)
    return reduced

instance : Evaluator Memoised where
  ofOutcome outcome := fun memo => outcome >>= fun result => .done (result, memo)
  remembering := remembering

def clear : Memoised Unit := modify Memo.clear

end Memoised

end SymbolicArith
