import SymbolicArith.Proofs.Expr.Recasting
import SymbolicArith.Proofs.Reduction.Limit

open SymbolicArith.Expr SymbolicArith.Outcome

-- How symbols are spelled and numbers are written does not matter to reductions: symbols are only
-- ever compared with one another, and numbers go by their value. So a run on trees that are cast
-- anew goes step by step as on the trees themselves, as long as different symbols stay different.
namespace SymbolicArith

variable {c : Recasting}

def Cursor.recast (c : Recasting) (cursor : Cursor) : Cursor :=
  ⟨cursor.passed.map (Expr.recast c), cursor.ahead.map (Expr.recast c)⟩

def Split.recast (c : Recasting) (found : Split) : Split :=
  ⟨found.common.map (Expr.recast c), found.restX.map (Expr.recast c),
    found.restY.map (Expr.recast c)⟩

def Rule.recast (c : Recasting) (rule : Rule) : Rule :=
  ⟨rule.tested.recast c, rule.literal, rule.result.recast c⟩

def MergeStep.recast (c : Recasting) (step : MergeStep) : MergeStep :=
  ⟨step.kind, step.left.recast c, step.right.recast c, step.result.recast c⟩

def Engine.Absorbed.recast (c : Recasting) (absorbed : Absorbed) : Absorbed :=
  ⟨absorbed.operand.recast c, absorbed.rest.map (Expr.recast c),
    absorbed.steps.map (MergeStep.recast c)⟩

theorem Cursor.all_recast (cursor : Cursor) :
    (cursor.recast c).all = cursor.all.map (Expr.recast c) := by
  rw [Cursor.all, Cursor.all, List.map_append, List.map_reverse]
  rfl

theorem Cursor.rewind_recast (cursor : Cursor) :
    (cursor.recast c).rewind = cursor.rewind.recast c := by
  rw [Cursor.rewind, Cursor.all_recast]
  rfl

theorem rules_recast (op : Operator) (x y : Expr) :
    rules op (x.recast c) (y.recast c) = (rules op x y).map (Rule.recast c) := by
  cases op with
  | nary op => cases op <;> simp [rules, Rule.recast, Expr.zero]
  | power => simp [rules, Rule.recast, Expr.zero, Expr.one]

theorem foldLiterals_recast {config : Config} {op : Operator} (x y : Literal) :
    foldLiterals config op (c.literal x) (c.literal y) =
      Option.map c.literal <$> foldLiterals config op x y := by
  cases op with
  | power => exact congrArg done (c.foldPower? _ x y)
  | nary op =>
    cases op with
    | sum =>
      rw [foldLiterals, foldLiterals, c.add?]
      cases x.add? y <;> rfl
    | product =>
      rw [foldLiterals, foldLiterals, c.mul?]
      cases x.mul? y <;> rfl

namespace Engine

theorem viewedAs_recast (op : Operator) (e : Expr) :
    viewedAs op (e.recast c) = (viewedAs op e).recast c := by
  simp only [viewedAs, kind_recast]
  split
  · rfl
  · rw [Operator.recast_plain, recast_one]

theorem lighter_recast (engine : Engine Outcome) (x y : Expr) :
    engine.lighter (x.recast c) (y.recast c) = engine.lighter x y := by
  unfold lighter weight
  rw [weight_recast, weight_recast]

-- Different symbols stay different, and the operations of the engine take the new leaves through.
structure Recasts (c : Recasting) (engine : Engine Outcome) : Prop where
  injective : c.symbol.Injective
  reduce : ∀ e, engine.reduce (e.recast c) = Expr.recast c <$> engine.reduce e
  settle : ∀ e, engine.settle (e.recast c) = Expr.recast c <$> engine.settle e
  isEqual : ∀ x y, engine.isEqual (x.recast c) (y.recast c) = engine.isEqual x y

namespace Recasts

variable {engine : Engine Outcome} (recasts : Recasts c engine)

include recasts

theorem seek (x : Expr) (passed ys : List Expr) :
    engine.seek (x.recast c) (passed.map (Expr.recast c)) (ys.map (Expr.recast c)) =
      Option.map (Cursor.recast c) <$> engine.seek x passed ys := by
  induction ys generalizing passed with
  | nil => rfl
  | cons y ahead ih =>
    rw [List.map_cons, Engine.seek, Engine.seek, recasts.isEqual]
    refine bind_kept fun equal => ?_
    cases equal with
    | true => rfl
    | false => exact ih (y :: passed)

theorem split (xs : List Expr) (cursor : Cursor) :
    engine.split (xs.map (Expr.recast c)) (cursor.recast c) =
      Split.recast c <$> engine.split xs cursor := by
  induction xs generalizing cursor with
  | nil =>
    rw [List.map_nil, Engine.split, Engine.split, Cursor.all_recast]
    rfl
  | cons x xs ih =>
    rw [List.map_cons, Engine.split, Engine.split]
    refine bind_carried (recasts.seek x cursor.passed cursor.ahead) fun sought => ?_
    cases sought with
    | some behind => exact bind_carried (ih behind) fun _ => rfl
    | none => exact bind_carried (cursor.rewind_recast ▸ ih cursor.rewind) fun _ => rfl

theorem splitOperands (x y : Expr) : engine.splitOperands (x.recast c) (y.recast c) =
    Split.recast c <$> engine.splitOperands x y := by
  rw [Engine.splitOperands, operands_recast, operands_recast]
  exact recasts.split x.operands (.start y.operands)

theorem factorSum (x y : Expr) : engine.factorSum (x.recast c) (y.recast c) =
    Option.map (Expr.recast c) <$> engine.factorSum x y := by
  rw [Engine.factorSum, Engine.factorSum]
  refine bind_carried (recasts.splitOperands x y) fun found => ?_
  have empty : (found.recast c).common.isEmpty = found.common.isEmpty := List.isEmpty_map
  have rests : Nary.sum.join [Nary.product.join (found.recast c).restX,
      Nary.product.join (found.recast c).restY] =
        (Nary.sum.join [Nary.product.join found.restX, Nary.product.join found.restY]).recast c := by
    simp [Split.recast]
  simp only [empty, rests]
  split
  · rfl
  · refine bind_carried (recasts.reduce _) fun reduced => ?_
    have factored : Nary.product.join [reduced.recast c, Nary.product.join (found.recast c).common] =
        (Nary.product.join [reduced, Nary.product.join found.common]).recast c := by
      simp [Split.recast]
    rw [lighter_recast, factored]
    split
    · exact bind_carried (recasts.reduce _) fun _ => rfl
    · rfl

theorem mergePowers (base exponent base' exponent' : Expr) :
    engine.mergePowers (base.recast c) (exponent.recast c) (base'.recast c) (exponent'.recast c) =
      Option.map (Expr.recast c) <$> engine.mergePowers base exponent base' exponent' := by
  have exponents : Nary.sum.join [exponent.recast c, exponent'.recast c] =
      (Nary.sum.join [exponent, exponent']).recast c := by simp
  rw [Engine.mergePowers, Engine.mergePowers, recasts.isEqual, exponents]
  refine bind_kept fun equal => ?_
  cases equal with
  | false => rfl
  | true =>
    refine bind_carried (recasts.reduce _) fun reduced => ?_
    rw [lighter_recast]
    split
    · exact congrArg (done ∘ some) recast_power.symm
    · rfl

theorem factorOutPower (x y : Expr) : engine.factorOutPower (x.recast c) (y.recast c) =
    Option.map (Expr.recast c) <$> engine.factorOutPower x y := by
  by_cases powers : x.kind = .power ∧ y.kind = .power
  · obtain ⟨base, exponent, rfl⟩ := eq_power_of_kind powers.1
    obtain ⟨base', exponent', rfl⟩ := eq_power_of_kind powers.2
    rw [recast_power, recast_power]
    exact recasts.mergePowers base exponent base' exponent'
  · have refused : ∀ {x y : Expr}, ¬ (x.kind = .power ∧ y.kind = .power) →
        engine.factorOutPower x y = .failed (.misuse .notPowers) := by
      intro x y others
      unfold Engine.factorOutPower
      split
      · exact absurd ⟨rfl, rfl⟩ others
      · rfl
    rw [refused powers, refused (by simpa using powers)]
    rfl

theorem ifEqual (x y result : Expr) : engine.ifEqual (x.recast c) (y.recast c) (result.recast c) =
    Option.map (Expr.recast c) <$> engine.ifEqual x y result := by
  rw [Engine.ifEqual, Engine.ifEqual, recasts.isEqual]
  refine bind_kept fun equal => ?_
  cases equal <;> rfl

theorem factor (op : Operator) (x y : Expr) : engine.factor op (x.recast c) (y.recast c) =
    Option.map (Expr.recast c) <$> engine.factor op x y := by
  cases op with
  | power => rfl
  | nary op =>
    cases op with
    | sum =>
      have doubled : Nary.product.join [.two, x.recast c] =
          (Nary.product.join [.two, x]).recast c := by simp
      simp only [Engine.factor, kind_recast, viewedAs_recast, doubled]
      split
      · exact recasts.ifEqual x y _
      · exact recasts.factorSum _ _
    | product =>
      have squared : Expr.power (x.recast c) .two = (Expr.power x .two).recast c := by simp
      simp only [Engine.factor, kind_recast, viewedAs_recast, squared]
      split
      · exact recasts.ifEqual x y _
      · exact recasts.factorOutPower _ _

omit recasts in
theorem foldNumbers (op : Operator) (x y : Expr) :
    engine.foldNumbers op (x.recast c) (y.recast c) =
      Option.map (Expr.recast c) <$> engine.foldNumbers op x y := by
  cases x with
  | symbol | nary | power => simp [Engine.foldNumbers, map_done]
  | number a =>
    cases y with
    | symbol | nary | power => simp [Engine.foldNumbers, map_done]
    | number b =>
      rw [recast_number, recast_number]
      refine bind_carried (foldLiterals_recast a b) fun folded => ?_
      cases folded with
      | none => rfl
      | some value => exact congrArg (done ∘ some) recast_number.symm

theorem isLiteral (e : Expr) (n : Int) :
    engine.isLiteral (e.recast c) n = engine.isLiteral e n := by
  have compared : ∀ e : Expr,
      engine.isEqual (e.recast c) (.ofInt n) = engine.isEqual e (.ofInt n) := by
    intro e
    rw [← recasts.isEqual e, recast_ofInt]
  cases e with
  | number value => simp [Engine.isLiteral, c.equalsInt]
  | symbol => simp [Engine.isLiteral]
  | nary op es => exact recast_nary ▸ compared (.nary op es)
  | power base exponent => exact recast_power ▸ compared (.power base exponent)

theorem firstRule (rules : List Rule) : engine.firstRule (rules.map (Rule.recast c)) =
    Option.map (Expr.recast c) <$> engine.firstRule rules := by
  induction rules with
  | nil => rfl
  | cons rule rest ih =>
    have tested : engine.isLiteral (rule.recast c).tested (rule.recast c).literal =
        engine.isLiteral rule.tested rule.literal := recasts.isLiteral _ _
    rw [List.map_cons, Engine.firstRule, Engine.firstRule, tested]
    refine bind_kept fun applies => ?_
    cases applies with
    | true => rfl
    | false => exact ih

theorem combine (op : Operator) (x y : Expr) : engine.combine op (x.recast c) (y.recast c) =
    Expr.recast c <$> engine.combine op x y := by
  have attempt : ∀ {first first' : Outcome (Option Expr)} {second second' : Outcome Expr},
      first' = Option.map (Expr.recast c) <$> first → second' = Expr.recast c <$> second →
        Engine.attempt first' second' = Expr.recast c <$> Engine.attempt first second := by
    intro first first' second second' here later
    refine bind_carried here fun answer => ?_
    cases answer with
    | some result => rfl
    | none => exact later
  refine attempt (foldNumbers op x y) (attempt ?_ (attempt (recasts.factor op x y) ?_))
  · rw [rules_recast]
    exact recasts.firstRule _
  · exact congrArg done (op.recast_plain x y).symm

theorem merge (op : Operator) (x y : Expr) : engine.merge op (x.recast c) (y.recast c) =
    Option.map (Expr.recast c) <$> engine.merge op x y := by
  refine bind_carried (recasts.combine op x y) fun merged => ?_
  rw [← Operator.recast_plain, lighter_recast]
  split <;> rfl

theorem absorb (op : Operator) (x : Expr) (ys : List Expr) :
    engine.absorb op (x.recast c) (ys.map (Expr.recast c)) =
      Absorbed.recast c <$> engine.absorb op x ys := by
  induction ys generalizing x with
  | nil => rfl
  | cons y ys ih =>
    rw [List.map_cons, Engine.absorb, Engine.absorb]
    refine bind_carried (recasts.merge op x y) fun answer => ?_
    cases answer with
    | some merged => exact bind_carried (ih merged) fun _ => rfl
    | none => exact bind_carried (ih x) fun _ => rfl

theorem sweep (op : Operator) (turns : Nat) (es : List Expr) :
    engine.sweep op turns (es.map (Expr.recast c)) =
      Prod.map (List.map (Expr.recast c)) (List.map (MergeStep.recast c)) <$>
        engine.sweep op turns es := by
  induction turns generalizing es with
  | zero => rfl
  | succ turns ih =>
    cases es with
    | nil => rfl
    | cons x ys =>
      rw [List.map_cons, Engine.sweep, Engine.sweep]
      refine bind_carried (recasts.absorb op x ys) fun absorbed => ?_
      refine bind_carried (ih absorbed.rest) fun swept => ?_
      simp [Absorbed.recast, map_done]

theorem condense (op : Nary) (operands : List Expr) :
    engine.condense op (operands.map (Expr.recast c)) =
      Prod.map (Expr.recast c) (List.map (MergeStep.recast c)) <$> engine.condense op operands := by
  rw [Engine.condense, Engine.condense, List.length_map]
  refine bind_carried (recasts.sweep _ _ operands) fun swept => ?_
  simp [map_done]

theorem condensePower (base exponent : Expr) :
    engine.condensePower (base.recast c) (exponent.recast c) =
      Prod.map (Expr.recast c) (List.map (MergeStep.recast c)) <$>
        engine.condensePower base exponent := by
  refine bind_carried (recasts.merge .power base exponent) fun answer => ?_
  cases answer with
  | some merged => rfl
  | none => exact congrArg (fun e => done (e, [])) recast_power.symm

theorem reduceStep (e : Expr) :
    engine.reduceStep (e.recast c) = Expr.recast c <$> engine.reduceStep e := by
  cases e with
  | number | symbol => simp [Engine.reduceStep, map_done]
  | nary op operands =>
    rw [recast_nary]
    refine bind_carried (mapM_carried fun e _ => recasts.reduce e) fun reduced => ?_
    exact bind_carried (recasts.condense op reduced) fun _ => rfl
  | power base exponent =>
    rw [recast_power]
    refine bind_carried (recasts.reduce base) fun base => ?_
    refine bind_carried (recasts.reduce exponent) fun exponent => ?_
    exact bind_carried (recasts.condensePower base exponent) fun _ => rfl

theorem settleStep (e : Expr) :
    engine.settleStep (e.recast c) = Expr.recast c <$> engine.settleStep e := by
  refine bind_carried (recasts.reduce e) fun again => ?_
  rw [lighter_recast]
  split
  · exact recasts.settle again
  · rfl

theorem settled (e : Expr) : engine.settled (e.recast c) = Expr.recast c <$> engine.settled e :=
  bind_carried (recasts.reduce e) recasts.settle

theorem pairOff (xs ys : List Expr) :
    engine.pairOff (xs.map (Expr.recast c)) (ys.map (Expr.recast c)) = engine.pairOff xs ys := by
  rw [← id_map (engine.pairOff xs ys)]
  induction xs generalizing ys with
  | nil => simp [Engine.pairOff]
  | cons x xs ih =>
    rw [List.map_cons, Engine.pairOff, Engine.pairOff]
    refine bind_carried (recasts.seek x [] ys) fun sought => ?_
    cases sought with
    | some cursor => exact (congrArg _ cursor.all_recast).trans (ih cursor.all)
    | none => rfl

theorem compare (x y : Expr) : engine.compare (x.recast c) (y.recast c) = engine.compare x y := by
  cases x with
  | number a => cases y <;> simp [Engine.compare, c.equals]
  | symbol a => cases y <;> simp [Engine.compare, recasts.injective.eq_iff]
  | nary op xs => cases y <;> simp [Engine.compare, recasts.pairOff]
  | power base exponent => cases y <;> simp [Engine.compare, recasts.isEqual]

theorem isEqualStep (x y : Expr) :
    engine.isEqualStep (x.recast c) (y.recast c) = engine.isEqualStep x y := by
  rw [← id_map (engine.isEqualStep x y)]
  refine bind_carried (recasts.settled x) fun x' => ?_
  refine bind_carried (recasts.settled y) fun y' => ?_
  rw [recasts.compare, id_map]

end Recasts

theorem within_recasts (injective : c.symbol.Injective) (config : Config) (depth : Nat) :
    Recasts c (within config depth) := by
  induction depth with
  | zero => exact ⟨injective, fun _ => rfl, fun _ => rfl, fun _ _ => rfl⟩
  | succ depth ih => exact ⟨injective, ih.reduceStep, ih.settleStep, ih.isEqualStep⟩

theorem unbounded_recasts (injective : c.symbol.Injective) (config : Config) :
    Recasts c (unbounded config) := by
  have inStep := unbounded_inStep config
  have below := within_recasts injective config
  have carried : ∀ {answer answer' : Outcome Expr} {run run' : Nat → Outcome Expr},
      converging.rel answer run → converging.rel answer' run' →
        (∀ depth, run' depth = Expr.recast c <$> run depth) →
          answer' = Expr.recast c <$> answer := by
    intro answer answer' run run' ends ends' each
    obtain ⟨bound, ran⟩ := ends
    exact converging_unique ends'
      ⟨bound, fun depth le => (each depth).trans (congrArg _ (ran depth le))⟩
  refine ⟨injective, fun e => ?_, fun e => ?_, fun x y => ?_⟩
  · exact carried (inStep.reduce e) (inStep.reduce _) fun depth => (below depth).reduce e
  · exact carried (inStep.settle e) (inStep.settle _) fun depth => (below depth).settle e
  · simp only [unbounded, (below _).isEqual]

-- Reductions compare and calculate with a number as with the literal that it is made into.
theorem unbounded_remade (config : Config) : Recasts .remade (unbounded config) :=
  unbounded_recasts Function.injective_id config

end Engine

end SymbolicArith
