import Mathlib.Data.Int.Cast.Lemmas
import Mathlib.Tactic.SplitIfs
import SymbolicArith.Proofs.Reduction.Reordering

open SymbolicArith.Expr SymbolicArith.Outcome

-- Equal bases and equal exponents make equal powers. A power is reduced by its operands alone: two
-- numbers fold, rules look for operands equal to 0 or 1, and otherwise the power stays. Equal operands
-- meet the same rules, and once they have settled they are numbers together.
namespace SymbolicArith

namespace Engine

variable {engine : Engine Outcome} {a b c d e r r' s u v x x' y y' : Expr} {p q : ℚ}

-- What a power of two reduced operands becomes.
inductive Raised (engine : Engine Outcome) (x y : Expr) : Expr → Prop
  | folded {r : Expr} (folds : engine.foldNumbers .power x y = .done (some r)) : Raised engine x y r
  | ruled {r : Expr} (rule : engine.firstRule (rules .power x y) = .done (some r)) :
      Raised engine x y r
  | plain (apart : engine.foldNumbers .power x y = .done none)
      (none : engine.firstRule (rules .power x y) = .done none) : Raised engine x y (power x y)

theorem combine_raised (run : engine.combine .power x y = .done r) : Raised engine x y r := by
  simp only [combine, attempt_eq_done, factor, pure_eq, done.injEq] at run
  rcases run with folded | ⟨apart, ruled | ⟨none, answer⟩⟩
  · exact .folded folded
  · exact .ruled ruled
  · obtain rfl : power x y = r := by simpa [Operator.plain] using answer
    exact .plain apart none

theorem Raised.lighter (raised : Raised engine x y r) :
    r = power x y ∨ r.mass < (power x y).mass := by
  have positiveX := mass_pos x
  have positiveY := mass_pos y
  cases raised with
  | folded folds =>
    obtain ⟨_, _, _, rfl, rfl, _, rfl⟩ := foldNumbers_some folds
    exact .inr (by simp)
  | ruled rule =>
    obtain ⟨rule, member, _, rfl⟩ := firstRule_some rule
    simp only [rules, List.mem_cons, List.not_mem_nil, or_false] at member
    right
    rcases member with rfl | rfl | rfl | rfl <;> simp only [one, zero, mass_ofInt, mass_power] <;>
      omega
  | plain => exact .inl rfl

-- The reduction of a power is what its reduced operands combine to: anything but the plain node is
-- lighter than that, and so it is accepted.
theorem Complete.reduce_power (complete : Complete engine)
    (run : engine.reduce (power x y) = .done r) :
    ∃ b e, engine.reduce x = .done b ∧ engine.reduce y = .done e ∧
      engine.combine .power b e = .done r := by
  cases reduceStep_reduced (complete.reduceStep run) with
  | terminal terminal => cases terminal
  | @power _ _ b e ofBase ofExponent refused =>
    obtain ⟨merged, combined, heavy⟩ := merge_none refused
    rw [lighter_iff complete.standard] at heavy
    obtain rfl := (combine_raised combined).lighter.resolve_right heavy
    exact ⟨b, e, ofBase, ofExponent, combined⟩
  | merged ofBase ofExponent accepted =>
    exact ⟨_, _, ofBase, ofExponent, (merge_some accepted).1⟩

-- Terminals are compared as they stand, which is how equality compares them too.
theorem Complete.isLiteral_eq (complete : Complete engine) (exact : x.Exact) (n : Int) :
    engine.isLiteral x n = engine.isEqual x (ofInt n) := by
  have number := (Normal.ofInt complete n).settled complete
  obtain ⟨equal, ran⟩ := complete.compares exact (exact_ofInt n)
  have step := complete.isEqualStep ran
  cases x with
  | number | symbol =>
    have self := (Normal.terminal complete exact rfl).settled complete
    rw [Engine.isEqualStep, self, number] at step
    rw [ran, ← step]
    rfl
  | nary | power => rfl

theorem Complete.isLiteral_congr (complete : Complete engine) (left : x.Exact) (right : x'.Exact)
    (equal : Equal engine x x') (n : Int) : engine.isLiteral x n = engine.isLiteral x' n := by
  have exact := exact_ofInt n
  have same : Equal engine x (ofInt n) ↔ Equal engine x' (ofInt n) :=
    ⟨complete.trans right left exact (complete.symm left right equal),
      complete.trans left right exact equal⟩
  obtain ⟨answer, ran, ran'⟩ :=
    (complete.compares left exact).same_answer (complete.compares right exact) same
  rw [complete.isLiteral_eq left, complete.isLiteral_eq right, ran, ran']

-- Rules with equal results whose tests have one outcome.
structure RulesAgree (engine : Engine Outcome) (rule rule' : Rule) : Prop where
  test : engine.isLiteral rule.tested rule.literal = engine.isLiteral rule'.tested rule'.literal
  result : Equal engine rule.result rule'.result

theorem firstRule_congr {first second : List Rule} {answer : Option Expr}
    (agree : List.Forall₂ (RulesAgree engine) first second)
    (run : engine.firstRule first = .done answer) :
    ∃ answer', engine.firstRule second = .done answer' ∧
      Option.Rel (Equal engine) answer answer' := by
  induction agree with
  | nil =>
    cases done.inj run
    exact ⟨none, rfl, .none⟩
  | cons agree _ ih =>
    simp only [firstRule, bind_eq_done] at run ⊢
    obtain ⟨applies, tested, run⟩ := run
    cases applies with
    | true =>
      cases done.inj run
      exact ⟨_, ⟨true, agree.test ▸ tested, rfl⟩, .some agree.result⟩
    | false =>
      obtain ⟨answer', later, equal⟩ := ih run
      exact ⟨answer', ⟨false, agree.test ▸ tested, later⟩, equal⟩

theorem Complete.power_rules (complete : Complete engine) (exactX : x.Exact) (exactX' : x'.Exact)
    (exactY : y.Exact) (exactY' : y'.Exact) (bases : Equal engine x x')
    (exponents : Equal engine y y') :
    List.Forall₂ (RulesAgree engine) (rules .power x y) (rules .power x' y') := by
  have base := complete.isLiteral_congr exactX exactX' bases
  have exponent := complete.isLiteral_congr exactY exactY' exponents
  have self : ∀ n, Equal engine (ofInt n) (ofInt n) := fun n => complete.isEqual_self (exact_ofInt n)
  exact .cons ⟨exponent 0, self 1⟩ (.cons ⟨base 0, self 0⟩ (.cons ⟨base 1, self 1⟩
    (.cons ⟨exponent 1, bases⟩ .nil)))

theorem Complete.equal_numbers (complete : Complete engine) (left : x.IsNumber p)
    (right : y.IsNumber p) : Equal engine x y := by
  obtain ⟨a, rfl, isX⟩ := left
  obtain ⟨b, rfl, isY⟩ := right
  have normalX : Normal engine (number a) := .terminal complete (exact_number.mpr ⟨p, isX⟩) rfl
  have normalY : Normal engine (number b) := .terminal complete (exact_number.mpr ⟨p, isY⟩) rfl
  exact complete.isEqual_of_agree normalX normalY (.number (by simp [Literal.equals_eq isX isY]))

-- Powers of numbers fold by the values of the numbers.
theorem foldNumbers_congr (bases : x.IsNumber p) (bases' : x'.IsNumber p) (exponents : y.IsNumber q)
    (exponents' : y'.IsNumber q) :
    engine.foldNumbers .power x y = engine.foldNumbers .power x' y' := by
  obtain ⟨a, rfl, isX⟩ := bases
  obtain ⟨a', rfl, isX'⟩ := bases'
  obtain ⟨b, rfl, isY⟩ := exponents
  obtain ⟨b', rfl, isY'⟩ := exponents'
  simp only [foldNumbers, foldLiterals]
  rw [← Literal.foldPower?_of_remade, ← Literal.foldPower?_of_remade _ a' b',
    Literal.remade_eq isX, Literal.remade_eq isX', Literal.remade_eq isY, Literal.remade_eq isY']

-- Where two numbers fold and a rule applies to them too, both give the same number.
theorem foldNumbers_ruled (left : x.Exact) (right : y.Exact)
    (folds : engine.foldNumbers .power x y = .done (some r))
    (rule : engine.firstRule (rules .power x y) = .done (some r')) :
    ∃ v, r'.IsNumber v ∧ r.IsNumber v := by
  obtain ⟨_, _, value, rfl, rfl, fold, rfl⟩ := foldNumbers_some folds
  obtain ⟨p, isX⟩ := left.number
  obtain ⟨q, isY⟩ := right.number
  obtain ⟨n, rfl, defined, rfl⟩ := foldPower?_exact isX isY (done.inj fold)
  simp only [rules, firstRule, isLiteral, Literal.equalsInt_eq isX, Literal.equalsInt_eq isY, pure_eq,
    done_bind, decide_eq_true_eq, Int.cast_zero, Int.cast_one, Int.cast_eq_zero,
    Int.cast_eq_one] at rule
  refine ⟨p ^ n, ?_, isNumber_exact _⟩
  split_ifs at rule with none zero one first
  · cases rule
    simp [Expr.one, Expr.ofInt, none]
  · cases rule
    simp [Expr.zero, Expr.ofInt, zero, zero_zpow n none]
  · cases rule
    simp [Expr.one, Expr.ofInt, one]
  · cases rule
    simpa [first] using isX
  · cases rule

-- A rule that applies to some operands applies to equal ones as well. Those may be numbers that fold.
theorem Complete.ruled_congr (complete : Complete engine) (exactX : x.Exact) (exactX' : x'.Exact)
    (exactY : y.Exact) (exactY' : y'.Exact) (bases : Equal engine x x')
    (exponents : Equal engine y y') (rule : engine.firstRule (rules .power x y) = .done (some r))
    (exact : r.Exact) (raised : Raised engine x' y' r') : Equal engine r r' := by
  obtain ⟨answer, rule', related⟩ := firstRule_congr
    (complete.power_rules exactX exactX' exactY exactY' bases exponents) rule
  cases related with
  | @some _ found equal =>
    cases raised with
    | folded folds =>
      obtain ⟨v, ruled, folded⟩ := foldNumbers_ruled exactX' exactY' folds rule'
      exact complete.trans exact ruled.exact folded.exact equal (complete.equal_numbers ruled folded)
    | ruled rule =>
      cases done.inj (rule'.symm.trans rule)
      exact equal
    | plain _ none => cases rule'.symm.trans none

theorem Complete.power_combined (complete : Complete engine) (exact : (power x y).Exact)
    (ofX : engine.reduce x = .done b) (ofY : engine.reduce y = .done e) :
    ∃ r, engine.reduce (power x y) = .done r ∧ engine.combine .power b e = .done r ∧ r.Exact ∧
      Equal engine (power x y) r := by
  obtain ⟨r, ran⟩ := complete.reduces exact
  obtain ⟨_, _, ofX', ofY', combined⟩ := complete.reduce_power ran
  cases done.inj (ofX.symm.trans ofX')
  cases done.inj (ofY.symm.trans ofY')
  exact ⟨r, ran, combined, complete.tame.exact exact ran, (complete.isEqual_reduce exact ran).1⟩

-- The operands of a power can be reduced first: what it is reduced to, by a fold or by a rule, the
-- power of the reduced operands is reduced to as well.
theorem Complete.power_step (complete : Complete engine) (left : x.Exact) (right : y.Exact)
    (ofX : engine.reduce x = .done b) (ofY : engine.reduce y = .done e) :
    Equal engine (power x y) (power b e) := by
  have exactB := complete.tame.exact left ofX
  have exactE := complete.tame.exact right ofY
  have exact : (power x y).Exact := exact_power.mpr ⟨left, right⟩
  have exact' : (power b e).Exact := exact_power.mpr ⟨exactB, exactE⟩
  obtain ⟨b', ofB⟩ := complete.reduces exactB
  obtain ⟨e', ofE⟩ := complete.reduces exactE
  obtain ⟨r, _, combined, exactR, equal⟩ := complete.power_combined exact ofX ofY
  obtain ⟨r', _, combined', exactR', equal'⟩ := complete.power_combined exact' ofB ofE
  have back : Equal engine r' (power b e) := complete.symm exact' exactR' equal'
  cases combine_raised combined with
  | folded folds =>
    obtain ⟨_, _, _, rfl, rfl, _, rfl⟩ := foldNumbers_some folds
    cases done.inj ((Normal.terminal complete exactB rfl).fixed.symm.trans ofB)
    cases done.inj ((Normal.terminal complete exactE rfl).fixed.symm.trans ofE)
    cases done.inj (combined.symm.trans combined')
    exact complete.trans exact exactR exact' equal back
  | ruled rule =>
    have same : Equal engine r r' := complete.ruled_congr exactB (complete.tame.exact exactB ofB)
      exactE (complete.tame.exact exactE ofE) (complete.isEqual_reduce exactB ofB).1
      (complete.isEqual_reduce exactE ofE).1 rule exactR (combine_raised combined')
    exact complete.chain exact exactR exactR' exact' equal same back
  | plain => exact equal

-- One step after the other, down to what the operands settle to.
theorem Complete.power_settle (complete : Complete engine) (exactX : x.Exact) (exactY : y.Exact)
    (flatX : x.Flat) (flatY : y.Flat) (ofX : engine.settle x = .done s)
    (ofY : engine.settle y = .done u) : Equal engine (power x y) (power s u) := by
  induction mass : x.mass + y.mass using Nat.strong_induction_on generalizing x y with
  | _ n ih =>
    obtain ⟨b, ranX⟩ := complete.reduces exactX
    obtain ⟨e, ranY⟩ := complete.reduces exactY
    have exactB := complete.tame.exact exactX ranX
    have exactE := complete.tame.exact exactY ranY
    have exactS := (complete.tame.settled exactX ofX).1
    have exactU := (complete.tame.settled exactY ofY).1
    have ofB := complete.settle_reduced exactX flatX ranX ofX
    have ofE := complete.settle_reduced exactY flatY ranY ofY
    have lightX := complete.light ranX
    have lightY := complete.light ranY
    have later : b.mass + e.mass < n → Equal engine (power x y) (power s u) := fun lighter =>
      complete.trans (exact_power.mpr ⟨exactX, exactY⟩) (exact_power.mpr ⟨exactB, exactE⟩)
        (exact_power.mpr ⟨exactS, exactU⟩) (complete.power_step exactX exactY ranX ranY)
        (ih _ lighter exactB exactE (complete.flat ranX) (complete.flat ranY) ofB ofE rfl)
    rcases complete.reduce_lighter exactX flatX ranX with rfl | lighter
    · rcases complete.reduce_lighter exactY flatY ranY with rfl | lighter
      · have base : engine.settle b = .done b := Normal.settle complete ⟨exactX, flatX, ranX⟩
        have exponent : engine.settle e = .done e := Normal.settle complete ⟨exactY, flatY, ranY⟩
        cases done.inj (ofX.symm.trans base)
        cases done.inj (ofY.symm.trans exponent)
        exact complete.isEqual_self (exact_power.mpr ⟨exactX, exactY⟩)
      · exact later (by omega)
    · exact later (by omega)

theorem Complete.power_settled (complete : Complete engine) (exactX : x.Exact) (exactY : y.Exact)
    (ofX : engine.settled x = .done s) (ofY : engine.settled y = .done u) :
    Equal engine (power x y) (power s u) := by
  obtain ⟨b, ranX, settleB⟩ := bind_eq_done.mp ofX
  obtain ⟨e, ranY, settleE⟩ := bind_eq_done.mp ofY
  have exactB := complete.tame.exact exactX ranX
  have exactE := complete.tame.exact exactY ranY
  have exactS := (complete.settled_normal exactX ofX).exact
  have exactU := (complete.settled_normal exactY ofY).exact
  exact complete.trans (exact_power.mpr ⟨exactX, exactY⟩) (exact_power.mpr ⟨exactB, exactE⟩)
    (exact_power.mpr ⟨exactS, exactU⟩) (complete.power_step exactX exactY ranX ranY)
    (complete.power_settle exactB exactE (complete.flat ranX) (complete.flat ranY) settleB settleE)

-- A power of settled operands is a number, what a rule makes of it, or settled.
theorem Normal.raised (complete : Complete engine) (base : Normal engine x)
    (exponent : Normal engine y) : ∃ r, Raised engine x y r ∧ r.Exact ∧
      Equal engine (power x y) r ∧ (r = power x y → Normal engine (power x y)) := by
  have exact : (power x y).Exact := exact_power.mpr ⟨base.exact, exponent.exact⟩
  obtain ⟨r, ran, combined, exactR, equal⟩ :=
    complete.power_combined exact base.fixed exponent.fixed
  refine ⟨r, combine_raised combined, exactR, equal, ?_⟩
  rintro rfl
  exact ⟨exact, flat_power.mpr ⟨base.flat, exponent.flat⟩, ran⟩

theorem Normal.isNumber_of_equal (complete : Complete engine) (left : Normal engine x)
    (right : Normal engine y) (equal : Equal engine x y) (number : x.IsNumber p) :
    y.IsNumber p := by
  obtain ⟨a, rfl, isX⟩ := number
  cases left.agree complete right equal with
  | @number _ b same =>
    obtain ⟨q, isY⟩ := right.exact.number
    rw [Literal.equals_eq isX isY, decide_eq_true_eq] at same
    exact ⟨b, rfl, same ▸ isY⟩

theorem foldNumbers_equal (complete : Complete engine) (baseX : Normal engine x)
    (baseY : Normal engine x') (exponentX : Normal engine y) (exponentY : Normal engine y')
    (bases : Equal engine x x') (exponents : Equal engine y y')
    (folds : engine.foldNumbers .power x y = .done (some r)) :
    engine.foldNumbers .power x' y' = .done (some r) := by
  obtain ⟨a, n, value, rfl, rfl, _, rfl⟩ := foldNumbers_some folds
  obtain ⟨p, base⟩ := exact_number.mp baseX.exact
  obtain ⟨q, exponent⟩ := exact_number.mp exponentX.exact
  rw [← isNumber_number] at base exponent
  have base' := baseX.isNumber_of_equal complete baseY bases base
  have exponent' := exponentX.isNumber_of_equal complete exponentY exponents exponent
  exact (foldNumbers_congr base' base exponent' exponent).trans folds

-- Numbers that fold are equal only to numbers that fold to the same; a rule applies on both sides
-- or on neither; and where nothing applies both powers are settled.
theorem Normal.power_congr (complete : Complete engine) (baseX : Normal engine x)
    (baseY : Normal engine x') (exponentX : Normal engine y) (exponentY : Normal engine y')
    (bases : Equal engine x x') (exponents : Equal engine y y') :
    Equal engine (power x y) (power x' y') := by
  have exact : (power x y).Exact := exact_power.mpr ⟨baseX.exact, exponentX.exact⟩
  have exact' : (power x' y').Exact := exact_power.mpr ⟨baseY.exact, exponentY.exact⟩
  have basesBack := complete.symm baseX.exact baseY.exact bases
  have exponentsBack := complete.symm exponentX.exact exponentY.exact exponents
  obtain ⟨r, raised, exactR, equal, fixed⟩ := baseX.raised complete exponentX
  obtain ⟨r', raised', exactR', equal', fixed'⟩ := baseY.raised complete exponentY
  have through : Equal engine r r' → Equal engine (power x y) (power x' y') := fun same =>
    complete.chain exact exactR exactR' exact' equal same (complete.symm exact' exactR' equal')
  cases raised with
  | folded folds =>
    have folds' := foldNumbers_equal complete baseX baseY exponentX exponentY bases exponents folds
    cases raised' with
    | folded again =>
      cases done.inj (folds'.symm.trans again)
      exact through (complete.isEqual_self exactR)
    | ruled rule =>
      obtain ⟨v, ruled, folded⟩ := foldNumbers_ruled baseY.exact exponentY.exact folds' rule
      exact through (complete.equal_numbers folded ruled)
    | plain apart => cases folds'.symm.trans apart
  | ruled rule =>
    exact through (complete.ruled_congr baseX.exact baseY.exact exponentX.exact exponentY.exact bases
      exponents rule exactR raised')
  | plain apart none =>
    cases raised' with
    | folded folds =>
      cases apart.symm.trans (foldNumbers_equal complete baseY baseX exponentY exponentX basesBack
        exponentsBack folds)
    | ruled rule =>
      have same := complete.ruled_congr baseY.exact baseX.exact exponentY.exact exponentX.exact
        basesBack exponentsBack rule exactR' (.plain apart none)
      exact through (complete.symm exactR' exactR same)
    | plain =>
      exact complete.isEqual_of_agree (fixed rfl) (fixed' rfl) (.power bases exponents)

theorem Complete.power_congr (complete : Complete engine) (exactA : a.Exact) (exactB : b.Exact)
    (exactC : c.Exact) (exactD : d.Exact) (bases : Equal engine a b)
    (exponents : Equal engine c d) : Equal engine (power a c) (power b d) := by
  obtain ⟨s, ofA⟩ := complete.settledFinishes exactA
  obtain ⟨v, ofB⟩ := complete.settledFinishes exactB
  obtain ⟨u, ofC⟩ := complete.settledFinishes exactC
  obtain ⟨w, ofD⟩ := complete.settledFinishes exactD
  have normalS := complete.settled_normal exactA ofA
  have normalV := complete.settled_normal exactB ofB
  have normalU := complete.settled_normal exactC ofC
  have normalW := complete.settled_normal exactD ofD
  have settledBases := (complete.isEqual_settled exactA exactB ofA ofB).mp bases
  have settledExponents := (complete.isEqual_settled exactC exactD ofC ofD).mp exponents
  have exactAC : (power a c).Exact := exact_power.mpr ⟨exactA, exactC⟩
  have exactBD : (power b d).Exact := exact_power.mpr ⟨exactB, exactD⟩
  have exactSU : (power s u).Exact := exact_power.mpr ⟨normalS.exact, normalU.exact⟩
  have exactVW : (power v w).Exact := exact_power.mpr ⟨normalV.exact, normalW.exact⟩
  have first := complete.power_settled exactA exactC ofA ofC
  have middle := normalS.power_congr complete normalV normalU normalW settledBases settledExponents
  have last := complete.symm exactBD exactVW (complete.power_settled exactB exactD ofB ofD)
  exact complete.chain exactAC exactSU exactVW exactBD first middle last

end Engine
end SymbolicArith
