import Mathlib.Tactic.Ring
import SymbolicArith.Proofs.Reduction.Closure

open SymbolicArith.Expr Relation

-- Reductions keep values and equality is sound: at every assignment at which all powers of the
-- trees are defined, a reduced tree has the value of the tree and equal trees have one value. The
-- two need one another, so an engine is shown sound from the soundness of the level below.
namespace SymbolicArith

variable {rho : String → ℚ}

-- The second tree has the value of the first, wherever that is defined.
def Keeps (rho : String → ℚ) (e r : Expr) : Prop := r.Regular rho ∧ r.value rho = e.value rho

structure Sound (rho : String → ℚ) (engine : Engine Outcome) : Prop where
  reduce : ∀ {e r}, e.Regular rho → engine.reduce e = .done r → Keeps rho e r
  settle : ∀ {e r}, e.Regular rho → engine.settle e = .done r → Keeps rho e r
  isEqual : ∀ {x y}, x.Regular rho → y.Regular rho → engine.isEqual x y = .done true →
    x.value rho = y.value rho

namespace Sound

open SymbolicArith.Engine

variable {engine : Engine Outcome} {op : Operator} {x y r : Expr} {xs ys : List Expr}

theorem pairs (sound : Sound rho engine) (paired : engine.Pairs xs ys)
    (left : ∀ e ∈ xs, e.Regular rho) (right : ∀ e ∈ ys, e.Regular rho) :
    xs.map (value rho) = ys.map (value rho) := by
  induction paired with
  | nil => rfl
  | cons equal _ ih =>
    rw [List.map_cons, List.map_cons, sound.isEqual (left _ (by simp)) (right _ (by simp)) equal,
      ih (fun e member => left e (by simp [member])) (fun e member => right e (by simp [member]))]

-- A product is the product of what was found in common and of what was left.
theorem factorSum (sound : Sound rho engine) (left : (Expr.product xs).Regular rho)
    (right : (Expr.product ys).Regular rho)
    (run : engine.factorSum (.product xs) (.product ys) = .done (some r)) :
    r.Regular rho ∧ r.value rho = (xs.map (value rho)).prod + (ys.map (value rho)).prod := by
  obtain ⟨found, reduced, taken, splits, _, ofRests, _, ofFactored⟩ := factorSum_some run
  have inX := Regular.nary.mp left
  have inY := Regular.nary.mp right
  have takenIn : ∀ e ∈ taken, e.Regular rho := fun e member =>
    inY e (splits.right.subset (by simp [member]))
  have commonIn : ∀ e ∈ found.common, e.Regular rho := fun e member =>
    inX e (splits.commonOrder.subset member)
  have restX : (Nary.product.join found.restX).Regular rho :=
    .join fun e member => inX e (splits.restXOrder.subset member)
  have restY : (Nary.product.join found.restY).Regular rho :=
    .join fun e member => inY e (splits.restYOrder.subset member)
  have ofX := Nary.total_perm .product (splits.left.map (value rho))
  have ofY := Nary.total_perm .product (splits.right.map (value rho))
  have shared := sound.pairs splits.paired commonIn takenIn
  obtain ⟨regular, rests⟩ := sound.reduce (Regular.join_pair .sum restX restY) ofRests
  obtain ⟨regular', factored⟩ :=
    sound.reduce (Regular.join_pair .product regular (.join commonIn)) ofFactored
  refine ⟨regular', ?_⟩
  simp only [operands, Nary.total, List.map_append, List.prod_append] at ofX ofY
  rw [factored, ← ofX, ← ofY, ← shared]
  simp only [Nary.value_join, Nary.total, List.map_cons, List.map_nil, List.sum_cons,
    List.sum_nil, List.prod_cons, List.prod_nil] at rests ⊢
  rw [rests]
  ring

-- Powers of one base multiply by adding exponents; a zero base has only positive ones.
theorem mergePowers (sound : Sound rho engine) (left : (Expr.power base exponent).Regular rho)
    (right : (Expr.power base' exponent').Regular rho)
    (run : engine.mergePowers base exponent base' exponent' = .done (some r)) :
    r.Regular rho ∧
      r.value rho = (Expr.power base exponent).value rho * (Expr.power base' exponent').value rho := by
  obtain ⟨equal, reduced, ofExponents, _, rfl⟩ := mergePowers_some run
  obtain ⟨ofBase, ofExponent, n, whole, defined⟩ := Regular.power.mp left
  obtain ⟨ofBase', ofExponent', n', whole', defined'⟩ := Regular.power.mp right
  have bases := sound.isEqual ofBase ofBase' equal
  obtain ⟨regular, sum⟩ := sound.reduce (Regular.join_pair .sum ofExponent ofExponent') ofExponents
  have total : reduced.value rho = ((n + n' : ℤ) : ℚ) := by
    rw [sum]
    simp [Nary.total, whole, whole']
  have nonzero : n + n' ≤ 0 → base.value rho ≠ 0 := by
    intro small
    by_cases first : n ≤ 0
    · exact defined first
    · exact bases ▸ defined' (by omega)
  refine ⟨Regular.power.mpr ⟨ofBase, regular, n + n', total, nonzero⟩, ?_⟩
  rw [value_power, value_power, value_power, total, whole, whole', ← bases]
  simp only [Rat.num_intCast]
  by_cases zero : base.value rho = 0
  · have positive : 0 < n := by by_contra small; exact defined (by omega) zero
    have positive' : 0 < n + n' := by by_contra small; exact nonzero (by omega) zero
    rw [zero, zero_zpow _ (by omega), zero_zpow _ (by omega), zero_mul]
  · exact zpow_add₀ zero n n'

theorem viewedAs_power_keeps (regular : x.Regular rho) :
    Keeps rho x (Engine.viewedAs .power x) := by
  unfold Engine.viewedAs
  split
  · exact ⟨regular, rfl⟩
  · refine ⟨Regular.power.mpr ⟨regular, .ofInt 1, 1, by simp [one], by omega⟩, ?_⟩
    simp [Operator.plain, one]

theorem viewedAs_product_keeps (regular : x.Regular rho) :
    ∃ xs, Engine.viewedAs .product x = .product xs ∧ (Expr.product xs).Regular rho ∧
      (xs.map (value rho)).prod = x.value rho := by
  by_cases own : x.kind = .product
  · obtain ⟨xs, rfl⟩ := eq_nary_of_kind own
    exact ⟨xs, viewedAs_own own, regular, by simp [Nary.total]⟩
  · refine ⟨[x, .one], viewedAs_product own, Regular.nary.mpr ?_, by simp [one]⟩
    simpa using ⟨regular, .ofInt 1⟩

theorem factored (sound : Sound rho engine) (left : x.Regular rho) (right : y.Regular rho)
    (shared : Factored engine op x y r) : Keeps rho (op.plain x y) r := by
  cases shared with
  | doubled equal =>
    refine ⟨Regular.join_pair .product (.ofInt 2) left, ?_⟩
    simp [Operator.plain, Nary.total, two, ← sound.isEqual left right equal]
    ring
  | squared equal =>
    refine ⟨Regular.power.mpr ⟨left, .ofInt 2, 2, by simp [two], by omega⟩, ?_⟩
    simp [Operator.plain, Nary.total, two, ← sound.isEqual left right equal]
    exact zpow_two _
  | common _ shared =>
    obtain ⟨xs, viewX, ofX, valueX⟩ := viewedAs_product_keeps left
    obtain ⟨ys, viewY, ofY, valueY⟩ := viewedAs_product_keeps right
    rw [viewX, viewY] at shared
    obtain ⟨regular, equal⟩ := sound.factorSum ofX ofY shared
    refine ⟨regular, ?_⟩
    simp [Operator.plain, Nary.total, equal, valueX, valueY]
  | sameBase _ viewX viewY shared =>
    obtain ⟨ofX, valueX⟩ := viewedAs_power_keeps left
    obtain ⟨ofY, valueY⟩ := viewedAs_power_keeps right
    rw [viewX] at ofX valueX
    rw [viewY] at ofY valueY
    obtain ⟨regular, equal⟩ := sound.mergePowers ofX ofY shared
    refine ⟨regular, ?_⟩
    rw [equal, valueX, valueY]
    simp [Operator.plain, Nary.total]

theorem isLiteral (sound : Sound rho engine) (regular : x.Regular rho) (n : Int)
    (literal : IsLiteral engine n x) : x.value rho = n := by
  cases literal with
  | number equal =>
    obtain ⟨q, is⟩ := regular.exact.number
    rw [value_number is]
    simpa [Literal.equalsInt_eq is] using equal
  | composite _ equal => simpa using sound.isEqual regular (.ofInt n) equal

theorem folded {a b v : Literal} (left : (Expr.number a).Regular rho)
    (right : (Expr.number b).Regular rho)
    (fold : foldLiterals engine.config op a b = .done (some v)) :
    Keeps rho (op.plain (.number a) (.number b)) (.number v) := by
  obtain ⟨p, isA⟩ := left.exact.number
  obtain ⟨q, isB⟩ := right.exact.number
  obtain ⟨v, rfl, folds⟩ := foldLiterals_exact isA isB fold
  refine ⟨⟨exact_number.mpr ⟨v, Literal.rational?_exact v⟩, everywhere_number.mpr trivial⟩, ?_⟩
  cases folds <;> simp [Operator.plain, Nary.total, value_number isA, value_number isB]

theorem ruled (sound : Sound rho engine) (left : x.Regular rho) (right : y.Regular rho)
    (whole : (op.plain x y).Regular rho) (member : rule ∈ rules op x y)
    (applies : IsLiteral engine rule.literal rule.tested) : Keeps rho (op.plain x y) rule.result := by
  cases op with
  | nary op =>
    cases op with
    | sum =>
      simp only [rules, List.mem_cons, List.not_mem_nil, or_false] at member
      rcases member with rfl | rfl
      · have zero := sound.isLiteral left 0 applies
        exact ⟨right, by simp [Operator.plain, Nary.total, zero]⟩
      · have zero := sound.isLiteral right 0 applies
        exact ⟨left, by simp [Operator.plain, Nary.total, zero]⟩
    | product =>
      simp only [rules, List.mem_cons, List.not_mem_nil, or_false] at member
      rcases member with rfl | rfl | rfl | rfl
      · have value := sound.isLiteral left 0 applies
        exact ⟨.ofInt 0, by simp [Operator.plain, Nary.total, value, zero]⟩
      · have value := sound.isLiteral right 0 applies
        exact ⟨.ofInt 0, by simp [Operator.plain, Nary.total, value, zero]⟩
      · have value := sound.isLiteral left 1 applies
        exact ⟨right, by simp [Operator.plain, Nary.total, value]⟩
      · have value := sound.isLiteral right 1 applies
        exact ⟨left, by simp [Operator.plain, Nary.total, value]⟩
  | power =>
    obtain ⟨_, _, n, whole, defined⟩ := Regular.power.mp whole
    simp only [rules, List.mem_cons, List.not_mem_nil, or_false] at member
    rcases member with rfl | rfl | rfl | rfl
    · have value := sound.isLiteral right 0 applies
      exact ⟨.ofInt 1, by simp [Operator.plain, value, one]⟩
    · have value := sound.isLiteral left 0 applies
      have positive : n ≠ 0 := fun none => defined (by omega) (by simpa using value)
      exact ⟨.ofInt 0, by simp [Operator.plain, value, whole, zero, zero_zpow _ positive]⟩
    · have value := sound.isLiteral left 1 applies
      exact ⟨.ofInt 1, by simp [Operator.plain, value, one]⟩
    · have value := sound.isLiteral right 1 applies
      exact ⟨left, by simp [Operator.plain, value]⟩

theorem combined (sound : Sound rho engine) (left : x.Regular rho) (right : y.Regular rho)
    (whole : (op.plain x y).Regular rho) (combined : Combined engine op x y r) :
    Keeps rho (op.plain x y) r := by
  cases combined with
  | folded fold => exact folded left right fold
  | ruled member applies => exact sound.ruled left right whole member applies
  | factored shared => exact sound.factored left right shared
  | plain => exact ⟨whole, rfl⟩

theorem merges (sound : Sound rho engine) {op : Nary} (step : Merges engine (.nary op) xs ys)
    (regular : ∀ e ∈ xs, e.Regular rho) :
    (∀ e ∈ ys, e.Regular rho) ∧ op.total (ys.map (value rho)) = op.total (xs.map (value rho)) := by
  cases step with
  | @merge x y merged before between after accepted =>
    have left : x.Regular rho := regular x (by simp)
    have right : y.Regular rho := regular y (by simp)
    have combined := combine_combined (merge_some accepted).1
    have whole : ((Operator.nary op).plain x y).Regular rho := .join_pair op left right
    obtain ⟨kept, equal⟩ := sound.combined left right whole combined
    constructor
    · intro e member
      simp only [List.mem_append, List.mem_cons] at member regular
      rcases member with early | rfl | late
      · exact regular e (.inl early)
      · exact kept
      · exact regular e (by tauto)
    · cases op with
      | sum =>
        simp only [Operator.plain, Nary.value_join, Nary.total, List.map_append, List.map_cons,
          List.map_nil, List.sum_append, List.sum_cons, List.sum_nil] at equal ⊢
        rw [equal]
        ring
      | product =>
        simp only [Operator.plain, Nary.value_join, Nary.total, List.map_append, List.map_cons,
          List.map_nil, List.prod_append, List.prod_cons, List.prod_nil] at equal ⊢
        rw [equal]
        ring

theorem pass (sound : Sound rho engine) {op : Nary}
    (run : ReflTransGen (Merges engine (.nary op)) xs ys) (regular : ∀ e ∈ xs, e.Regular rho) :
    (∀ e ∈ ys, e.Regular rho) ∧ op.total (ys.map (value rho)) = op.total (xs.map (value rho)) := by
  induction run with
  | refl => exact ⟨regular, rfl⟩
  | tail _ step ih =>
    obtain ⟨regular', equal⟩ := sound.merges step ih.1
    exact ⟨regular', equal.trans ih.2⟩

theorem operands (sound : Sound rho engine)
    (below : List.Forall₂ (fun e r => engine.reduce e = .done r) xs ys)
    (regular : ∀ e ∈ xs, e.Regular rho) :
    (∀ e ∈ ys, e.Regular rho) ∧ ys.map (value rho) = xs.map (value rho) := by
  induction below with
  | nil => simp
  | cons ran _ ih =>
    obtain ⟨kept, equal⟩ := sound.reduce (regular _ (by simp)) ran
    obtain ⟨others, equals⟩ := ih fun e member => regular e (by simp [member])
    exact ⟨by simpa using ⟨kept, others⟩, by simp [equal, equals]⟩

theorem reduced (sound : Sound rho engine) (regular : e.Regular rho)
    (reduced : Reduced engine e r) : Keeps rho e r := by
  cases reduced with
  | terminal => exact ⟨regular, rfl⟩
  | nary below pass =>
    obtain ⟨kept, equals⟩ := sound.operands below (Regular.nary.mp regular)
    obtain ⟨kept', equal⟩ := sound.pass pass.merges kept
    exact ⟨.join kept', by rw [Nary.value_join, equal, equals, value_nary]⟩
  | power ofBase ofExponent _ =>
    obtain ⟨base, exponent, n, whole, defined⟩ := Regular.power.mp regular
    obtain ⟨base', equal⟩ := sound.reduce base ofBase
    obtain ⟨exponent', equal'⟩ := sound.reduce exponent ofExponent
    refine ⟨Regular.power.mpr ⟨base', exponent', n, equal' ▸ whole, equal ▸ defined⟩, ?_⟩
    rw [value_power, value_power, equal, equal']
  | @merged _ _ b e _ ofBase ofExponent accepted =>
    obtain ⟨base, exponent, n, whole, defined⟩ := Regular.power.mp regular
    obtain ⟨base', equal⟩ := sound.reduce base ofBase
    obtain ⟨exponent', equal'⟩ := sound.reduce exponent ofExponent
    have power : (Operator.power.plain b e).Regular rho :=
      Regular.power.mpr ⟨base', exponent', n, equal' ▸ whole, equal ▸ defined⟩
    have combined := combine_combined (merge_some accepted).1
    obtain ⟨kept, merged⟩ := sound.combined base' exponent' power combined
    refine ⟨kept, ?_⟩
    rw [merged, Operator.plain, value_power, value_power, equal, equal']

theorem agree (sound : Sound rho engine) (left : x.Regular rho) (right : y.Regular rho)
    (agree : Agree engine x y) : x.value rho = y.value rho := by
  cases agree with
  | number equal =>
    obtain ⟨p, isA⟩ := left.exact.number
    obtain ⟨q, isB⟩ := right.exact.number
    rw [value_number isA, value_number isB]
    simpa [Literal.equals_eq isA isB] using equal
  | symbol => rfl
  | nary paired perm =>
    have inX := Regular.nary.mp left
    have inY := Regular.nary.mp right
    have values := sound.pairs paired inX fun e member => inY e (perm.subset member)
    rw [value_nary, value_nary, values, Nary.total_perm _ (perm.map (value rho))]
  | power bases exponents =>
    obtain ⟨base, exponent, _⟩ := Regular.power.mp left
    obtain ⟨base', exponent', _⟩ := Regular.power.mp right
    rw [value_power, value_power, sound.isEqual base base' bases,
      sound.isEqual exponent exponent' exponents]

end Sound

namespace Engine

theorem settled_done {engine : Engine Outcome} (run : engine.settled x = .done r) :
    ∃ y, engine.reduce x = .done y ∧ engine.settle y = .done r := by
  simpa [settled] using run

theorem within_sound (config : Config) (depth : Nat) : Sound rho (within config depth) := by
  induction depth with
  | zero => exact ⟨nofun, nofun, nofun⟩
  | succ depth sound =>
    constructor
    · intro e r regular run
      exact sound.reduced regular (reduceStep_reduced run)
    · intro e r regular run
      obtain ⟨again, reduced, answer⟩ := settleStep_done run
      split at answer
      · obtain ⟨kept, equal⟩ := sound.reduce regular reduced
        obtain ⟨kept', equal'⟩ := sound.settle kept answer
        exact ⟨kept', equal'.trans equal⟩
      · subst answer
        exact ⟨regular, rfl⟩
    · intro x y left right run
      obtain ⟨x', y', ofX, ofY, agree⟩ := isEqualStep_true run
      obtain ⟨_, reducedX, settledX⟩ := settled_done ofX
      obtain ⟨_, reducedY, settledY⟩ := settled_done ofY
      obtain ⟨keptX, equalX⟩ := sound.reduce left reducedX
      obtain ⟨keptY, equalY⟩ := sound.reduce right reducedY
      obtain ⟨keptX', equalX'⟩ := sound.settle keptX settledX
      obtain ⟨keptY', equalY'⟩ := sound.settle keptY settledY
      rw [← equalX, ← equalX', ← equalY, ← equalY']
      exact sound.agree keptX' keptY' agree

-- A reduction changes neither the value of a tree nor the definedness of its powers, whatever the
-- shape of the tree and under every configuration.
theorem reduce_preserves_value {config : Config} {depth : Nat} {t r : Expr} (exact : t.Exact)
    (defined : t.Defined rho) (run : (within config depth).reduce t = .done r) :
    r.value rho = t.value rho ∧ r.Defined rho := by
  obtain ⟨regular, equal⟩ := (within_sound config depth).reduce ⟨exact, defined⟩ run
  exact ⟨equal, regular.defined⟩

-- The sum 2/x + 3/x is reduced to 5/x.
theorem reduce_preserves_value_of_inverses :
    (within {} 8).reduce (sum [product [ofInt 2, power (symbol "x") (ofInt (-1))],
        product [power (symbol "x") (ofInt (-1)), ofInt 3]]) =
        .done (product [ofInt 5, power (symbol "x") (ofInt (-1))]) ∧
      (product [ofInt 5, power (symbol "x") (ofInt (-1))]).value (fun _ => 3) =
        (sum [product [ofInt 2, power (symbol "x") (ofInt (-1))],
          product [power (symbol "x") (ofInt (-1)), ofInt 3]]).value (fun _ => 3) ∧
      (product [ofInt 5, power (symbol "x") (ofInt (-1))]).Defined (fun _ => 3) := by
  have inverse : (power (symbol "x") (ofInt (-1))).Regular fun _ => 3 := by
    refine Regular.power.mpr ⟨⟨by decide, everywhere_symbol.mpr trivial⟩, .ofInt (-1), -1, ?_, ?_⟩
    · simp
    · simp [value, valueWith]
  have regular : (sum [product [ofInt 2, power (symbol "x") (ofInt (-1))],
      product [power (symbol "x") (ofInt (-1)), ofInt 3]]).Regular fun _ => 3 := by
    simp [Regular.nary, inverse, Regular.ofInt]
  have run : (within {} 8).reduce (sum [product [ofInt 2, power (symbol "x") (ofInt (-1))],
      product [power (symbol "x") (ofInt (-1)), ofInt 3]]) =
      .done (product [ofInt 5, power (symbol "x") (ofInt (-1))]) := by cbv
  exact ⟨run, reduce_preserves_value regular.exact regular.defined run⟩

-- Trees that are found equal have one value wherever the powers of both are defined.
theorem isEqual_implies_same_value {config : Config} {depth : Nat} {a b : Expr} (exactA : a.Exact)
    (exactB : b.Exact) (run : (within config depth).isEqual a b = .done true)
    (definedA : a.Defined rho) (definedB : b.Defined rho) : a.value rho = b.value rho :=
  (within_sound config depth).isEqual ⟨exactA, definedA⟩ ⟨exactB, definedB⟩ run

-- The product x * x * 1 equals the power x ^ 2.
theorem isEqual_implies_same_value_of_square :
    (within {} 6).isEqual (product [symbol "x", symbol "x", ofInt 1])
        (power (symbol "x") (ofInt 2)) = .done true ∧
      (product [symbol "x", symbol "x", ofInt 1]).value (fun _ => 3) =
        (power (symbol "x") (ofInt 2)).value (fun _ => 3) := by
  have run : (within {} 6).isEqual (product [symbol "x", symbol "x", ofInt 1])
      (power (symbol "x") (ofInt 2)) = .done true := by cbv
  have symbols : (symbol "x").Regular fun _ => 3 := ⟨by decide, everywhere_symbol.mpr trivial⟩
  have square : (power (symbol "x") (ofInt 2)).Regular fun _ => 3 :=
    Regular.power.mpr ⟨symbols, .ofInt 2, 2, by simp, by omega⟩
  have factors : (product [symbol "x", symbol "x", ofInt 1]).Regular fun _ => 3 := by
    simp [Regular.nary, symbols, Regular.ofInt]
  have same :=
    isEqual_implies_same_value factors.exact square.exact run factors.defined square.defined
  exact ⟨run, same⟩

end Engine
end SymbolicArith
