import SymbolicArith.Expansion
import SymbolicArith.Proofs.Reduction.Chains
import SymbolicArith.Proofs.Reduction.Replay

open SymbolicArith.Expr SymbolicArith.Outcome

-- Exact trees are safe. Under every configuration and at every depth, an operation on trees without
-- floats has a result or is cut short, but it never fails: all trees that it makes up on its way are
-- exact, the nodes that are factored are of one kind, and no power of numbers is worked out where it
-- is undefined.
namespace SymbolicArith

namespace Engine

-- An engine that fails on no exact tree, and answers with exact trees.
structure Safe (engine : Engine Outcome) : Prop where
  exact : ∀ {e r}, e.Exact → engine.reduce e = .done r → r.Exact
  settled : ∀ {e r}, e.Exact → engine.settle e = .done r → r.Exact
  reduce : ∀ {e}, e.Exact → (engine.reduce e).Unfailing
  settle : ∀ {e}, e.Exact → (engine.settle e).Unfailing
  isEqual : ∀ {x y}, x.Exact → y.Exact → (engine.isEqual x y).Unfailing

variable {engine : Engine Outcome} {op : Operator} {x y e r : Expr} {es : List Expr}

namespace Safe

variable (safe : Safe engine)

include safe

theorem pairs (left : x.Exact) (right : y.Exact) :
    ∀ a ∈ x.operands, ∀ b ∈ y.operands, (engine.isEqual a b).Unfailing :=
  fun _ inX _ inY => safe.isEqual (left.operand inX) (right.operand inY)

theorem factorSum (left : x.Exact) (right : y.Exact) : (engine.factorSum x y).Unfailing := by
  apply unfailing_chained.factorSum
  · exact unfailing_chained.split (safe.pairs left right)
  · intro found taken splits _
    obtain ⟨common, rests⟩ := closed_exact.parts left right splits
    refine ⟨safe.reduce rests, fun ran _ => ?_⟩
    exact safe.reduce (closed_exact.join_pair .product (safe.exact rests ran) common)

-- Both operands are viewed as powers before they are asked to be powers.
theorem factorOutPower (left : x.Exact) (right : y.Exact) :
    (engine.factorOutPower (viewedAs .power x) (viewedAs .power y)).Unfailing := by
  have exactX := closed_exact.viewedAs .power left
  have exactY := closed_exact.viewedAs .power right
  obtain ⟨base, exponent, viewX⟩ := viewedAs_power x
  obtain ⟨base', exponent', viewY⟩ := viewedAs_power y
  rw [viewX] at exactX ⊢
  rw [viewY] at exactY ⊢
  obtain ⟨ofBase, ofExponent⟩ := exact_power.mp exactX
  obtain ⟨ofBase', ofExponent'⟩ := exact_power.mp exactY
  exact unfailing_chained.mergePowers (safe.isEqual ofBase ofBase')
    (safe.reduce (closed_exact.join_pair .sum ofExponent ofExponent'))

theorem factor (left : x.Exact) (right : y.Exact) : (engine.factor op x y).Unfailing :=
  unfailing_chained.factor (fun _ => safe.isEqual left right)
    (fun _ _ => safe.factorSum (closed_exact.viewedAs .product left)
      (closed_exact.viewedAs .product right))
    fun _ _ => safe.factorOutPower left right

theorem combine (left : x.Exact) (right : y.Exact) : (engine.combine op x y).Unfailing := by
  refine unfailing_chained.combine left right ?_ (safe.factor left right)
  intro rule member
  have number := exact_ofInt rule.literal
  rcases rule_tested member with tested | tested
  · exact tested ▸ unfailing_chained.isLiteral (safe.isEqual left number)
  · exact tested ▸ unfailing_chained.isLiteral (safe.isEqual right number)

theorem merge (left : x.Exact) (right : y.Exact) : (engine.merge op x y).Unfailing :=
  unfailing_chained.bind (safe.combine left right) fun _ _ => unfailing_chained.done _

theorem absorb (exact : ∀ e ∈ x :: es, e.Exact) : (engine.absorb op x es).Unfailing := by
  refine unfailing_chained.absorb (fun x es => ∀ e ∈ x :: es, e.Exact) ?_ exact
  intro x y es exact
  have left := exact x (by simp)
  have right := exact y (by simp)
  have others : ∀ e ∈ es, e.Exact := fun e member => exact e (by simp [member])
  refine ⟨safe.merge left right, by simpa using ⟨left, others⟩, fun ran => ?_⟩
  simpa using ⟨closed_exact.merge safe.exact left right ran, others⟩

theorem sweep (exact : ∀ e ∈ es, e.Exact) : (engine.sweep op turns es).Unfailing := by
  refine unfailing_chained.sweep (fun es => ∀ e ∈ es, e.Exact) ?_ exact
  intro x es exact
  refine ⟨safe.absorb exact, fun ran e member => ?_⟩
  exact closed_exact.pass safe.exact (absorb_merges [] ran) exact e (by simp [member])

theorem reduceStep (exact : e.Exact) : (engine.reduceStep e).Unfailing := by
  have operand : ∀ o ∈ e.operands, (engine.reduce o).Unfailing := fun o member =>
    safe.reduce (exact.operand member)
  cases e with
  | number | symbol => exact unfailing_chained.done _
  | nary op es =>
    refine unfailing_chained.bind (unfailing_chained.mapM operand) fun reduced ran => ?_
    have exact' : ∀ r ∈ reduced, r.Exact := by
      intro r member
      obtain ⟨o, present, ran⟩ := pair_of_mem_right (mapM_eq_done.mp ran) member
      exact safe.exact (exact.operand present) ran
    have swept : (engine.condense op reduced).Unfailing :=
      unfailing_chained.bind (safe.sweep exact') fun _ _ => unfailing_chained.done _
    exact unfailing_chained.bind swept fun _ _ => unfailing_chained.done _
  | power base exponent =>
    refine unfailing_chained.bind (operand base (by simp [operands])) fun b ofBase => ?_
    refine unfailing_chained.bind (operand exponent (by simp [operands])) fun e ofExponent => ?_
    have left := safe.exact (exact.operand (by simp [operands])) ofBase
    have right := safe.exact (exact.operand (by simp [operands])) ofExponent
    exact unfailing_chained.bind (unfailing_chained.condensePower (safe.merge left right))
      fun _ _ => unfailing_chained.done _

theorem settleStep (exact : e.Exact) : (engine.settleStep e).Unfailing := by
  refine unfailing_chained.bind (safe.reduce exact) fun again ran => ?_
  split
  · exact safe.settle (safe.exact exact ran)
  · exact unfailing_chained.done _

theorem settledUnfailing (exact : e.Exact) : (engine.settled e).Unfailing :=
  unfailing_chained.bind (safe.reduce exact) fun _ ran => safe.settle (safe.exact exact ran)

theorem settled_exact (exact : e.Exact) (run : engine.settled e = .done r) : r.Exact := by
  obtain ⟨reduced, ran, settles⟩ := bind_eq_done.mp run
  exact safe.settled (safe.exact exact ran) settles

theorem isEqualStep (left : x.Exact) (right : y.Exact) : (engine.isEqualStep x y).Unfailing := by
  refine unfailing_chained.bind (safe.settledUnfailing left) fun x' ofX => ?_
  refine unfailing_chained.bind (safe.settledUnfailing right) fun y' ofY => ?_
  exact unfailing_chained.compare
    (safe.pairs (safe.settled_exact left ofX) (safe.settled_exact right ofY))

end Safe

theorem within_safe (config : Config) (depth : Nat) : Safe (within config depth) := by
  induction depth with
  | zero => exact ⟨reduce_exact, nofun, fun _ => nofun, fun _ => nofun, fun _ _ => nofun⟩
  | succ depth ih =>
    refine ⟨reduce_exact, ?_, ih.reduceStep, ih.settleStep, ih.isEqualStep⟩
    intro e r exact run
    obtain ⟨again, ran, answer⟩ := settleStep_done run
    split at answer
    · exact ih.settled (reduce_exact exact ran) answer
    · exact answer ▸ exact

-- A trace has the result of the reduction, where there is one.
theorem reduceTraced_unfailing {config : Config} {depth : Nat} (exact : e.Exact) :
    ((within config depth).reduceTraced e).Unfailing := by
  have reduces : ((unbounded config).reduce e).Unfailing :=
    limit_unfailing fun depth => (within_safe config depth).reduce exact
  rw [← reduceTraced_fst (unbounded_reduce config) e] at reduces
  exact reduces.of_map.of_extended ((within_below_unbounded config depth).reduceTraced e)

end Engine

-- Expansion has nothing in it that could fail, floats or not.
section

variable {config : Config} {inner : Expr → Outcome Expr}
  (below : ∀ e, (inner e).Unfailing)

include below

theorem distribute_unfailing (e : Expr) : (distribute inner e).Unfailing := by
  unfold distribute
  split
  · split
    · exact unfailing_chained.bind (unfailing_chained.mapM fun _ _ => below _) fun _ _ =>
        unfailing_chained.done _
    · exact unfailing_chained.done _
  · exact unfailing_chained.done _

theorem multiplyOut_unfailing (e : Expr) : (multiplyOut config inner e).Unfailing := by
  unfold multiplyOut
  split
  · split
    · exact distribute_unfailing below _
    · exact unfailing_chained.done _
  · exact distribute_unfailing below _

theorem expandStep_unfailing (e : Expr) : (expandStep config inner e).Unfailing := by
  cases e with
  | number | symbol => exact unfailing_chained.done _
  | nary op operands =>
    exact unfailing_chained.bind (unfailing_chained.mapM fun _ _ => below _) fun _ _ =>
      multiplyOut_unfailing below _
  | power base exponent =>
    exact unfailing_chained.bind (below base) fun _ _ =>
      unfailing_chained.bind (below exponent) fun _ _ => multiplyOut_unfailing below _

end

theorem expandWithin_unfailing (config : Config) (depth : Nat) (e : Expr) :
    (e.expandWithin config depth).Unfailing := by
  induction depth generalizing e with
  | zero => exact nofun
  | succ depth ih => exact expandStep_unfailing ih e

end SymbolicArith
