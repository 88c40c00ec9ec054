import SymbolicArith.Proofs.Reduction.Soundness

open SymbolicArith.Expr

-- Combining two operands keeps their value, whether or not they are reduced themselves, and so does
-- every factored form that is offered. What is asked of an assignment is asked of the plain node of
-- the two operands only.
namespace SymbolicArith

variable {rho : String → ℚ} {x y : Expr}

namespace Expr.Regular

-- Where the plain node is defined, both of its operands are.
theorem of_plain {op : Operator} (exactX : x.Exact) (exactY : y.Exact)
    (defined : (op.plain x y).Defined rho) :
    x.Regular rho ∧ y.Regular rho ∧ (op.plain x y).Regular rho := by
  cases op with
  | nary op =>
    have parts : ∀ e ∈ [x, y], e.Defined rho :=
      Nary.everywhere_of_join (fun _ => trivial) defined
    have left : x.Regular rho := ⟨exactX, parts x (by simp)⟩
    have right : y.Regular rho := ⟨exactY, parts y (by simp)⟩
    exact ⟨left, right, .join_pair op left right⟩
  | power =>
    have whole : (Expr.power x y).Regular rho := ⟨exact_power.mpr ⟨exactX, exactY⟩, defined⟩
    obtain ⟨left, right, _⟩ := Regular.power.mp whole
    exact ⟨left, right, whole⟩

end Expr.Regular

namespace Engine

theorem factorOutSum_some {engine : Engine Outcome} {r : Expr}
    (run : engine.factorOutSum x y = .done (some r)) : engine.factorSum x y = .done (some r) := by
  obtain ⟨_, _, ran⟩ := Outcome.bind_eq_done.mp run
  exact ran

-- The result has the value of the plain node and is defined with it.
structure CombinationsKeep (engine : Engine Outcome) (rho : String → ℚ) : Prop where
  combine : ∀ {op : Operator} {x y r : Expr}, x.Exact → y.Exact → (op.plain x y).Defined rho →
    engine.combine op x y = .done r → r.Defined rho ∧ r.value rho = (op.plain x y).value rho
  factorOutSum : ∀ {xs ys : List Expr} {r : Expr}, (product xs).Exact → (product ys).Exact →
    (Operator.sum.plain (product xs) (product ys)).Defined rho →
    engine.factorOutSum (product xs) (product ys) = .done (some r) →
    r.Defined rho ∧ r.value rho = (product xs).value rho + (product ys).value rho
  factorOutPower : ∀ {base exponent base' exponent' r : Expr},
    (power base exponent).Exact → (power base' exponent').Exact →
    (Operator.product.plain (power base exponent) (power base' exponent')).Defined rho →
    engine.factorOutPower (power base exponent) (power base' exponent') = .done (some r) →
    r.Defined rho ∧
      r.value rho = (power base exponent).value rho * (power base' exponent').value rho

-- Under every configuration, and of all exact operands.
theorem combination_preserves_value (config : Config) (depth : Nat) (rho : String → ℚ) :
    CombinationsKeep (within config depth) rho := by
  have sound : Sound rho (within config depth) := within_sound config depth
  constructor
  · intro op x y r exactX exactY defined run
    obtain ⟨left, right, whole⟩ := Regular.of_plain exactX exactY defined
    obtain ⟨regular, equal⟩ := sound.combined left right whole (combine_combined run)
    exact ⟨regular.defined, equal⟩
  · intro xs ys r exactX exactY defined run
    obtain ⟨left, right, _⟩ := Regular.of_plain exactX exactY defined
    obtain ⟨regular, equal⟩ := sound.factorSum left right (factorOutSum_some run)
    exact ⟨regular.defined, by simpa [Nary.total] using equal⟩
  · intro base exponent base' exponent' r exactX exactY defined run
    obtain ⟨left, right, _⟩ := Regular.of_plain exactX exactY defined
    obtain ⟨regular, equal⟩ := sound.mergePowers left right run
    exact ⟨regular.defined, equal⟩

-- Here x + 1 - 1 is the base of x ^ -1 only up to reduction: their product is (x + 1 - 1) ^ 0. The
-- terms 2 / x and 3 / x make 5 / x, and x ^ 2 and x ^ -1 make x ^ 1.
theorem combination_preserves_value_of_inverses :
    (power (sum [symbol "x", one, minusOne]) zero).value (fun _ => 3) =
        (product [sum [symbol "x", one, minusOne], power (symbol "x") minusOne]).value
          (fun _ => 3) ∧
      (product [ofInt 5, power (symbol "x") minusOne]).value (fun _ => 3) =
        (product [two, power (symbol "x") minusOne]).value (fun _ => 3) +
          (product [power (symbol "x") minusOne, ofInt 3]).value (fun _ => 3) ∧
      (power (symbol "x") one).value (fun _ => 3) =
        (power (symbol "x") two).value (fun _ => 3) *
          (power (symbol "x") minusOne).value (fun _ => 3) := by
  have kept := combination_preserves_value {} 8 fun _ => 3
  have base : (symbol "x").Regular fun _ => 3 := ⟨by decide, everywhere_symbol.mpr trivial⟩
  have inverse : (power (symbol "x") minusOne).Regular fun _ => 3 :=
    Regular.power.mpr ⟨base, .ofInt (-1), -1, by simp [minusOne], by simp [value, valueWith]⟩
  have square : (power (symbol "x") two).Regular fun _ => 3 :=
    Regular.power.mpr ⟨base, .ofInt 2, 2, by simp [two], by omega⟩
  have total : (sum [symbol "x", one, minusOne]).Regular fun _ => 3 := by
    simp [Regular.nary, base, one, minusOne, Regular.ofInt]
  have double : (product [two, power (symbol "x") minusOne]).Regular fun _ => 3 := by
    simp [Regular.nary, inverse, two, Regular.ofInt]
  have triple : (product [power (symbol "x") minusOne, ofInt 3]).Regular fun _ => 3 := by
    simp [Regular.nary, inverse, Regular.ofInt]
  have combined : (within {} 8).combine .product (sum [symbol "x", one, minusOne])
      (power (symbol "x") minusOne) =
      .done (power (sum [symbol "x", one, minusOne]) zero) := by cbv
  have shared : (within {} 8).factorOutSum (product [two, power (symbol "x") minusOne])
      (product [power (symbol "x") minusOne, ofInt 3]) =
      .done (some (product [ofInt 5, power (symbol "x") minusOne])) := by cbv
  have merged : (within {} 8).factorOutPower (power (symbol "x") two)
      (power (symbol "x") minusOne) = .done (some (power (symbol "x") one)) := by cbv
  refine ⟨?_, ?_, ?_⟩
  · have plain : (Operator.product.plain (sum [symbol "x", one, minusOne])
        (power (symbol "x") minusOne)).Regular fun _ => 3 := .join_pair .product total inverse
    exact (kept.combine total.exact inverse.exact plain.defined combined).2
  · exact (kept.factorOutSum double.exact triple.exact
      (Regular.join_pair .sum double triple).defined shared).2
  · exact (kept.factorOutPower square.exact inverse.exact
      (Regular.join_pair .product square inverse).defined merged).2

end Engine
end SymbolicArith
