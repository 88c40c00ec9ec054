import SymbolicArith.Proofs.Reduction.Closure

open SymbolicArith.Engine SymbolicArith.Expr

-- What the operations of an engine hand on. A property of outcomes that chaining keeps holds of an
-- operation on exact trees as soon as it holds of the reductions and comparisons that the operation
-- asks for; what these are is told here once, with all that is known when they are asked.
namespace SymbolicArith.Outcome.Chained

variable {holds : {α : Type} → Outcome α → Prop} {engine : Engine Outcome} {op : Operator}
  {x y : Expr} {xs ys es : List Expr}

section

variable (chained : Chained holds)

include chained

theorem attempt {first : Outcome (Option α)} {second : Outcome α} (one : holds first)
    (two : holds second) : holds (attempt first second) := by
  apply chained.bind one
  intro answer _
  cases answer with
  | some result => exact chained.done result
  | none => exact two

theorem seek (each : ∀ y ∈ ys, holds (engine.isEqual x y)) : holds (engine.seek x passed ys) := by
  induction ys generalizing passed with
  | nil => exact chained.done none
  | cons y ahead ih =>
    unfold Engine.seek
    apply chained.bind (each y (by simp))
    intro equal _
    cases equal with
    | true => exact chained.done _
    | false => exact ih fun other member => each other (by simp [member])

theorem split {cursor : Cursor} (each : ∀ x ∈ xs, ∀ y ∈ cursor.all, holds (engine.isEqual x y)) :
    holds (engine.split xs cursor) := by
  induction xs generalizing cursor with
  | nil => exact chained.done _
  | cons x xs ih =>
    unfold Engine.split
    have ahead : ∀ y ∈ cursor.ahead, holds (engine.isEqual x y) := by
      intro y member
      exact each x (by simp) y (by simp [Cursor.all, member])
    apply chained.bind (chained.seek ahead)
    intro sought search
    cases sought with
    | some behind =>
      obtain ⟨_, _, _, order⟩ := seek_takes search
      have later : ∀ a ∈ xs, ∀ y ∈ behind.all, holds (engine.isEqual a y) := by
        intro a member y present
        exact each a (by simp [member]) y (order.subset present)
      exact chained.bind (ih later) fun _ _ => chained.done _
    | none =>
      have later : ∀ a ∈ xs, ∀ y ∈ cursor.rewind.all, holds (engine.isEqual a y) := by
        intro a member
        exact each a (by simp [member])
      exact chained.bind (ih later) fun _ _ => chained.done _

theorem pairOff (each : ∀ x ∈ xs, ∀ y ∈ ys, holds (engine.isEqual x y)) :
    holds (engine.pairOff xs ys) := by
  induction xs generalizing ys with
  | nil => exact chained.done _
  | cons x xs ih =>
    unfold Engine.pairOff
    apply chained.bind (chained.seek (each x (by simp)))
    intro sought search
    cases sought with
    | some cursor =>
      have search : engine.seek x (Cursor.start ys).passed (Cursor.start ys).ahead = _ := search
      obtain ⟨_, _, _, order⟩ := seek_takes search
      apply ih
      intro a member y present
      exact each a (by simp [member]) y (order.subset present)
    | none => exact chained.done _

theorem compare (each : ∀ a ∈ x.operands, ∀ b ∈ y.operands, holds (engine.isEqual a b)) :
    holds (engine.compare x y) := by
  unfold Engine.compare
  split
  · exact chained.done _
  · exact chained.done _
  · split
    · exact chained.pairOff each
    · exact chained.done _
  · apply chained.bind (each _ (by simp [operands]) _ (by simp [operands]))
    intro equal _
    split
    · exact each _ (by simp [operands]) _ (by simp [operands])
    · exact chained.done _
  · exact chained.done _

theorem foldNumbers (left : x.Exact) (right : y.Exact) : holds (engine.foldNumbers op x y) := by
  unfold Engine.foldNumbers
  split
  · rename_i a b
    obtain ⟨p, isA⟩ := left.number
    obtain ⟨q, isB⟩ := right.number
    have folds : holds (foldLiterals engine.config op a b) := by
      cases op with
      | nary op =>
        cases op with
        | sum =>
          rw [foldLiterals, Literal.add?_eq isA isB]
          exact chained.done _
        | product =>
          rw [foldLiterals, Literal.mul?_eq isA isB]
          exact chained.done _
      | power => exact chained.done _
    exact chained.bind folds fun _ _ => chained.done _
  · exact chained.done _

theorem isLiteral (equal : holds (engine.isEqual x (ofInt n))) : holds (engine.isLiteral x n) := by
  cases x with
  | number | symbol => exact chained.done _
  | nary | power => exact equal

theorem firstRule {rules : List Rule}
    (each : ∀ rule ∈ rules, holds (engine.isLiteral rule.tested rule.literal)) :
    holds (engine.firstRule rules) := by
  induction rules with
  | nil => exact chained.done none
  | cons rule rest ih =>
    unfold Engine.firstRule
    apply chained.bind (each rule (by simp))
    intro applies _
    split
    · exact chained.done _
    · exact ih fun later member => each later (by simp [member])

theorem factorSum (search : holds (engine.splitOperands x y))
    (rests : ∀ {found taken}, Splits engine x.operands y.operands found taken →
      found.common ≠ [] → holds (engine.reduce found.rests) ∧
        ∀ {reduced}, engine.reduce found.rests = .done reduced →
          engine.lighter reduced found.rests → holds (engine.reduce (found.factored reduced))) :
    holds (engine.factorSum x y) := by
  unfold Engine.factorSum
  apply chained.bind search
  intro found split
  obtain ⟨taken, splits⟩ := split_splits split
  split
  · exact chained.done _
  · rename_i some
    obtain ⟨ofRests, ofFactored⟩ := rests splits (by simpa using some)
    apply chained.bind ofRests
    intro reduced ran
    split
    · rename_i lighter
      exact chained.bind (ofFactored ran lighter) fun _ _ => chained.done _
    · exact chained.done _

theorem mergePowers (bases : holds (engine.isEqual base base'))
    (exponents : holds (engine.reduce (Nary.sum.join [exponent, exponent']))) :
    holds (engine.mergePowers base exponent base' exponent') := by
  unfold Engine.mergePowers
  apply chained.bind bases
  intro equal _
  split
  · exact chained.bind exponents fun _ _ => chained.done _
  · exact chained.done _

theorem factor (equal : op ≠ .power → holds (engine.isEqual x y))
    (sums : op = .sum → x.kind = .product ∨ y.kind = .product →
      holds (engine.factorSum (viewedAs .product x) (viewedAs .product y)))
    (powers : op = .product → x.kind = .power ∨ y.kind = .power →
      holds (engine.factorOutPower (viewedAs .power x) (viewedAs .power y))) :
    holds (engine.factor op x y) := by
  cases op with
  | power => exact chained.done none
  | nary op =>
    have same : holds (engine.isEqual x y) := equal nofun
    have alike : ∀ result, holds (engine.ifEqual x y result) := fun result =>
      chained.bind same fun _ _ => chained.done _
    cases op with
    | sum =>
      simp only [Engine.factor]
      split
      · exact alike _
      · rename_i own
        exact sums rfl (by tauto)
    | product =>
      simp only [Engine.factor]
      split
      · exact alike _
      · rename_i own
        exact powers rfl (by tauto)

theorem combine (left : x.Exact) (right : y.Exact)
    (literals : ∀ rule ∈ rules op x y, holds (engine.isLiteral rule.tested rule.literal))
    (factored : holds (engine.factor op x y)) : holds (engine.combine op x y) := by
  refine chained.attempt (chained.foldNumbers left right) ?_
  refine chained.attempt (chained.firstRule literals) ?_
  exact chained.attempt factored (chained.done _)

-- What fits before a merge is asked to fit after it, whether the merge is accepted or not.
theorem absorb (fits : Expr → List Expr → Prop)
    (each : ∀ {x y ys}, fits x (y :: ys) → holds (engine.merge op x y) ∧ fits x ys ∧
      ∀ {merged}, engine.merge op x y = .done (some merged) → fits merged ys)
    (all : fits x ys) : holds (engine.absorb op x ys) := by
  induction ys generalizing x with
  | nil => exact chained.done _
  | cons y ys ih =>
    obtain ⟨merge, refused, accepted⟩ := each all
    unfold Engine.absorb
    apply chained.bind merge
    intro answer ran
    cases answer with
    | some merged => exact chained.bind (ih (accepted ran)) fun _ _ => chained.done _
    | none => exact chained.bind (ih refused) fun _ _ => chained.done _

theorem sweep (fits : List Expr → Prop)
    (each : ∀ {x ys}, fits (x :: ys) → holds (engine.absorb op x ys) ∧
      ∀ {absorbed}, engine.absorb op x ys = .done absorbed → fits absorbed.rest)
    (all : fits es) : holds (engine.sweep op turns es) := by
  induction turns generalizing es with
  | zero => exact chained.done _
  | succ turns ih =>
    cases es with
    | nil => exact chained.done _
    | cons x ys =>
      obtain ⟨first, rest⟩ := each all
      unfold Engine.sweep
      apply chained.bind first
      intro absorbed ran
      exact chained.bind (ih (rest ran)) fun _ _ => chained.done _

theorem condensePower (merge : holds (engine.merge .power x y)) :
    holds (engine.condensePower x y) := by
  apply chained.bind merge
  intro answer _
  cases answer with
  | some merged => exact chained.done _
  | none => exact chained.done _

end

end SymbolicArith.Outcome.Chained
