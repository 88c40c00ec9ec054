import SymbolicArith.Failure

-- Outcomes of a computation that may fail, and that may be cut short at a depth limit. A cut is no
-- answer: it is kept apart from every result and every failure.
namespace SymbolicArith

inductive Outcome (α : Type) where
  | done (result : α)
  | failed (cause : Failure)
  | unfinished

namespace Outcome

protected def bind : Outcome α → (α → Outcome β) → Outcome β
  | .done result, next => next result
  | .failed cause, _ => .failed cause
  | .unfinished, _ => .unfinished

instance : Monad Outcome where
  pure := .done
  bind := Outcome.bind

instance : LawfulMonad Outcome :=
  LawfulMonad.mk' Outcome
    (fun x => by cases x <;> rfl)
    (fun _ _ => rfl)
    (fun x _ _ => by cases x <;> rfl)

@[simp] theorem done_bind (result : α) (next : α → Outcome β) :
    (done result >>= next) = next result := rfl
@[simp] theorem failed_bind (cause : Failure) (next : α → Outcome β) :
    (failed cause >>= next) = failed cause := rfl
@[simp] theorem unfinished_bind (next : α → Outcome β) :
    ((unfinished : Outcome α) >>= next) = unfinished := rfl

def ofExcept : Except Failure α → Outcome α
  | .ok result => .done result
  | .error cause => .failed cause

-- The result if there is one, else the failure.
def ofOption (cause : Failure) : Option α → Outcome α
  | some result => .done result
  | none => .failed cause

end Outcome

end SymbolicArith
