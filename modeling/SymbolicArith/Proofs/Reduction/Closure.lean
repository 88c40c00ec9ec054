import Mathlib.Algebra.Ring.Int.Parity
import SymbolicArith.Proofs.Expr.Value
import SymbolicArith.Proofs.Reduction.Steps

-- What reductions keep of the shape of a tree. A property is closed if the constructions a
-- reduction uses keep it; a closed property that holds of all leaves of a tree holds of its
-- reduction. So reductions of exact trees are exact, and reductions of any tree are flat.
namespace SymbolicArith

-- An operator on two rationals, where it folds.
inductive Folds : Operator → ℚ → ℚ → ℚ → Prop
  | sum {p q : ℚ} : Folds .sum p q (p + q)
  | product {p q : ℚ} : Folds .product p q (p * q)
  | power {p : ℚ} {n : ℤ} (defined : p = 0 → 0 ≤ n) : Folds .power p n (p ^ n)

theorem exactPower_eq (base : ℚ) (exponent : ℤ) :
    Literal.exactPower base exponent = base ^ exponent := by
  unfold Literal.exactPower
  split
  · rename_i zero
    subst zero
    split
    · rename_i none
      rw [none, zpow_zero]
    · rename_i some
      rw [zero_zpow _ some]
  · split
    · rename_i one
      rw [one, one_zpow]
    · split
      · rename_i minus
        subst minus
        split
        · rename_i even
          exact (Even.neg_one_zpow (Int.even_iff.mpr even)).symm
        · rename_i odd
          exact (Odd.neg_one_zpow (Int.odd_iff.mpr (by omega))).symm
      · rfl

section

variable {a b value : Literal} {p q : ℚ}

theorem foldPower?_eq {n : ℤ} (isA : a.rational? = some p) (isB : b.rational? = some (n : ℚ))
    (defined : p = 0 → 0 ≤ n) (within : n.natAbs ≤ limit) :
    Literal.foldPower? limit a b = some (.exact (p ^ n)) := by
  have base : (a.equalsInt 0 && decide (n < 0)) = false := by
    simpa [Literal.equalsInt_eq isA] using defined
  unfold Literal.foldPower?
  rw [Literal.integer?_eq isB, Literal.integral?_intCast]
  simp only [base, Nat.not_lt.mpr within, Bool.false_eq_true, if_false, ← exactPower_eq]
  cases a with
  | whole | ratio =>
    cases isA
    rfl
  | float => cases isA

theorem foldPower?_exact (isA : a.rational? = some p) (isB : b.rational? = some q)
    (fold : Literal.foldPower? limit a b = some value) :
    ∃ n : ℤ, q = n ∧ (p = 0 → 0 ≤ n) ∧ value = .exact (p ^ n) := by
  unfold Literal.foldPower? at fold
  split at fold
  · cases fold
  · rename_i n whole
    rw [Literal.integer?_eq isB, Literal.integral?_eq_some] at whole
    split at fold
    · cases fold
    · rename_i defined
      split at fold
      · cases fold
      · refine ⟨n, whole, ?_, ?_⟩
        · intro zero
          by_contra negative
          exact defined (by simp [Literal.equalsInt_eq isA, zero]; omega)
        · rw [← exactPower_eq]
          cases a with
          | whole | ratio =>
            cases isA
            exact (Option.some.inj fold).symm
          | float => cases isA

theorem foldLiterals_exact (isA : a.rational? = some p) (isB : b.rational? = some q)
    (fold : foldLiterals config op a b = .done (some value)) :
    ∃ v, value = .exact v ∧ Folds op p q v := by
  cases op with
  | nary op =>
    cases op with
    | sum =>
      refine ⟨p + q, ?_, .sum⟩
      simpa [foldLiterals, Literal.add?_eq isA isB, Outcome.ofOption, eq_comm] using fold
    | product =>
      refine ⟨p * q, ?_, .product⟩
      simpa [foldLiterals, Literal.mul?_eq isA isB, Outcome.ofOption, eq_comm] using fold
  | power =>
    obtain ⟨n, rfl, defined, rfl⟩ := foldPower?_exact isA isB (Outcome.done.inj fold)
    exact ⟨p ^ n, rfl, .power defined⟩

end

theorem foldLiterals_eq_exact {a b value : Literal} (left : (Expr.number a).Exact)
    (right : (Expr.number b).Exact) (fold : foldLiterals config op a b = .done (some value)) :
    ∃ v, value = .exact v := by
  obtain ⟨p, isA⟩ := left.number
  obtain ⟨q, isB⟩ := right.number
  obtain ⟨v, is, _⟩ := foldLiterals_exact isA isB fold
  exact ⟨v, is⟩

-- A property of trees that is kept by whatever a reduction builds.
structure Closed (holds : Expr → Prop) : Prop where
  ofInt : ∀ n, holds (.ofInt n)
  folded : ∀ {config op a b value}, holds (.number a) → holds (.number b) →
    foldLiterals config op a b = .done (some value) → holds (.number value)
  join : ∀ {op : Nary} {es}, (∀ e ∈ es, holds e) → holds (op.join es)
  power : ∀ {base exponent}, holds base → holds exponent → holds (.power base exponent)
  operand : ∀ {e o : Expr}, holds e → o ∈ e.operands → holds o

theorem closed_exact : Closed Expr.Exact where
  ofInt := Expr.exact_ofInt
  folded left right fold := by
    obtain ⟨v, rfl⟩ := foldLiterals_eq_exact left right fold
    exact Expr.exact_number.mpr ⟨v, Literal.rational?_exact v⟩
  join := Nary.join_exact
  power base exponent := Expr.exact_power.mpr ⟨base, exponent⟩
  operand := Expr.Everywhere.operand

theorem closed_flat : Closed Expr.Flat where
  ofInt _ := Expr.flat_terminal rfl
  folded _ _ _ := Expr.flat_terminal rfl
  join := Nary.join_flat
  power base exponent := Expr.flat_power.mpr ⟨base, exponent⟩
  operand := Expr.Everywhere.operand

theorem foldLiterals_canonical {a b value : Literal}
    (fold : foldLiterals config op a b = .done (some value)) : value.Canonical := by
  cases op with
  | nary op =>
    cases op with
    | sum =>
      cases sum : a.add? b with
      | none => simp [foldLiterals, sum, Outcome.ofOption] at fold
      | some total =>
        obtain rfl : total = value := by simpa [foldLiterals, sum, Outcome.ofOption] using fold
        exact Literal.add?_canonical sum
    | product =>
      cases product : a.mul? b with
      | none => simp [foldLiterals, product, Outcome.ofOption] at fold
      | some total =>
        obtain rfl : total = value := by simpa [foldLiterals, product, Outcome.ofOption] using fold
        exact Literal.mul?_canonical product
  | power => exact Literal.foldPower?_canonical (Outcome.done.inj fold)

theorem closed_canonical : Closed Expr.Canonical where
  ofInt _ := Expr.everywhere_number.mpr rfl
  folded _ _ fold := Expr.everywhere_number.mpr (foldLiterals_canonical fold)
  join := Nary.join_canonical
  power base exponent := Expr.everywhere_power.mpr ⟨trivial, base, exponent⟩
  operand := Expr.Everywhere.operand

abbrev Expr.Leaves (holds : Expr → Prop) : Expr → Prop :=
  Everywhere fun e => e.isTerminal → holds e

theorem Expr.leaves_flat (e : Expr) : e.Leaves Flat := by
  induction e with
  | number | symbol => simp [FlatNode]
  | nary op es ih =>
    refine everywhere_nary.mpr ⟨?_, ih⟩
    intro terminal
    cases terminal
  | power base exponent ofBase ofExponent =>
    refine everywhere_power.mpr ⟨?_, ofBase, ofExponent⟩
    intro terminal
    cases terminal

namespace Closed

open SymbolicArith.Engine Relation

variable {holds : Expr → Prop} {engine : Engine Outcome} {op : Operator} {x y r e : Expr}

theorem leaves (closed : Closed holds) (all : holds e) : e.Leaves holds := by
  induction e with
  | number | symbol => simpa using fun _ => all
  | nary op es ih =>
    refine Expr.everywhere_nary.mpr ⟨nofun, ?_⟩
    intro e member
    exact ih e member (closed.operand all member)
  | power base exponent ofBase ofExponent =>
    refine Expr.everywhere_power.mpr ⟨nofun, ofBase ?_, ofExponent ?_⟩
    · exact closed.operand all (by simp [Expr.operands])
    · exact closed.operand all (by simp [Expr.operands])

theorem join_pair (closed : Closed holds) (op : Nary) (left : holds x) (right : holds y) :
    holds (op.join [x, y]) :=
  closed.join (by simp [left, right])

theorem plain (closed : Closed holds) (left : holds x) (right : holds y) :
    holds (op.plain x y) := by
  cases op with
  | nary op => exact closed.join_pair op left right
  | power => exact closed.power left right

theorem viewedAs (closed : Closed holds) (op : Operator) (all : holds e) :
    holds (viewedAs op e) := by
  unfold Engine.viewedAs
  split
  · exact all
  · exact closed.plain all (closed.ofInt 1)

-- What two nodes share and what they have left.
theorem parts {found : Split} {taken : List Expr} (closed : Closed holds) (left : holds x)
    (right : holds y) (splits : Splits engine x.operands y.operands found taken) :
    holds (Nary.product.join found.common) ∧ holds found.rests := by
  have common : holds (Nary.product.join found.common) := by
    apply closed.join
    intro e member
    exact closed.operand left (splits.commonOrder.subset member)
  have restX : holds (Nary.product.join found.restX) := by
    apply closed.join
    intro e member
    exact closed.operand left (splits.restXOrder.subset member)
  have restY : holds (Nary.product.join found.restY) := by
    apply closed.join
    intro e member
    exact closed.operand right (splits.restYOrder.subset member)
  exact ⟨common, closed.join_pair .sum restX restY⟩

section

variable (closed : Closed holds)
  (below : ∀ {e r}, holds e → engine.reduce e = .done r → holds r)

include closed below

theorem factorSum (left : holds x) (right : holds y)
    (run : engine.factorSum x y = .done (some r)) : holds r := by
  obtain ⟨found, reduced, taken, splits, _, ofRests, _, ofFactored⟩ := factorSum_some run
  obtain ⟨common, rests⟩ := closed.parts left right splits
  exact below (closed.join_pair .product (below rests ofRests) common) ofFactored

theorem factored (left : holds x) (right : holds y) (shared : Factored engine op x y r) :
    holds r := by
  cases shared with
  | doubled => exact closed.join_pair .product (closed.ofInt 2) left
  | squared => exact closed.power left (closed.ofInt 2)
  | common _ shared =>
    have ofX := closed.viewedAs .product left
    have ofY := closed.viewedAs .product right
    exact closed.factorSum below ofX ofY shared
  | sameBase _ viewX viewY shared =>
    have power := viewX ▸ closed.viewedAs .power left
    have power' := viewY ▸ closed.viewedAs .power right
    obtain ⟨_, reduced, ofExponents, _, rfl⟩ := mergePowers_some shared
    have exponents := below (closed.join_pair .sum (closed.operand power (by simp [Expr.operands]))
      (closed.operand power' (by simp [Expr.operands]))) ofExponents
    exact closed.power (closed.operand power (by simp [Expr.operands])) exponents

theorem combined (left : holds x) (right : holds y) (combined : Combined engine op x y r) :
    holds r := by
  cases combined with
  | folded fold => exact closed.folded left right fold
  | ruled member =>
    have results : ∀ rule ∈ rules op x y, holds rule.result := by
      cases op with
      | nary op => cases op <;> simp [rules, left, right, closed.ofInt, Expr.zero]
      | power => simp [rules, left, closed.ofInt, Expr.zero, Expr.one]
    exact results _ member
  | factored shared => exact closed.factored below left right shared
  | plain => exact closed.plain left right

theorem merge (left : holds x) (right : holds y) (run : engine.merge op x y = .done (some r)) :
    holds r :=
  closed.combined below left right (combine_combined (merge_some run).1)

theorem pass (run : ReflTransGen (Merges engine op) xs ys) (all : ∀ e ∈ xs, holds e) :
    ∀ e ∈ ys, holds e :=
  pass_kept (closed.merge below) run all

theorem reduced (operands : ∀ o ∈ e.operands, ∀ r, engine.reduce o = .done r → holds r)
    (terminal : e.isTerminal → holds e) (reduced : Reduced engine e r) : holds r := by
  cases reduced with
  | terminal isTerminal => exact terminal isTerminal
  | nary ofOperands pass =>
    apply closed.join
    apply closed.pass below pass.merges
    intro r member
    obtain ⟨o, present, ran⟩ := pair_of_mem_right ofOperands member
    exact operands o present r ran
  | power ofBase ofExponent _ =>
    exact closed.power (operands _ (by simp [Expr.operands]) _ ofBase)
      (operands _ (by simp [Expr.operands]) _ ofExponent)
  | merged ofBase ofExponent accepted =>
    exact closed.merge below (operands _ (by simp [Expr.operands]) _ ofBase)
      (operands _ (by simp [Expr.operands]) _ ofExponent) accepted

end

-- What a closed property says of all leaves of a tree it says of the reduced tree.
theorem reduce {config : Config} {depth : Nat} (closed : Closed holds) (leaves : e.Leaves holds)
    (run : (within config depth).reduce e = .done r) : holds r := by
  induction depth generalizing e r with
  | zero => cases run
  | succ depth ih =>
    refine closed.reduced (fun all ran => ih (closed.leaves all) ran) ?_ ?_ (reduceStep_reduced run)
    · intro o member r ran
      exact ih (leaves.operand member) ran
    · intro terminal
      exact leaves.here terminal

end Closed

namespace Engine

variable {config : Config} {depth : Nat} {e r : Expr}

theorem reduce_exact (exact : e.Exact) (run : (within config depth).reduce e = .done r) :
    r.Exact :=
  closed_exact.reduce (closed_exact.leaves exact) run

theorem reduce_canonical (canonical : e.Canonical)
    (run : (within config depth).reduce e = .done r) :
    r.Canonical :=
  closed_canonical.reduce (closed_canonical.leaves canonical) run

theorem reduce_flat (run : (within config depth).reduce e = .done r) : r.Flat :=
  closed_flat.reduce (Expr.leaves_flat e) run

end Engine

end SymbolicArith
