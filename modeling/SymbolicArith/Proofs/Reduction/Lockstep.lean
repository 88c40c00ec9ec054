import SymbolicArith.Operations
import SymbolicArith.Proofs.Outcome

-- Runs in step with one another. A relation between a computation and a family of computations, of
-- possibly another evaluator, that holds of equal outcomes and is kept by chaining, carries over
-- from the three operations of an engine to every operation made of them.
namespace SymbolicArith

structure Lockstep (m : Type → Type) (ι : Type) (m' : Type → Type) [Evaluator m] [Evaluator m'] where
  rel : {α : Type} → m α → (ι → m' α) → Prop
  pure : ∀ {α : Type} (a : α), rel (pure a) fun _ => pure a
  ofOutcome : ∀ {α : Type} (outcome : Outcome α), rel (ofOutcome outcome) fun _ => ofOutcome outcome
  bind : ∀ {α β : Type} {first : m α} {firsts : ι → m' α} {next : α → m β} {nexts : ι → α → m' β},
    rel first firsts → (∀ a, rel (next a) fun i => nexts i a) →
    rel (first >>= next) fun i => firsts i >>= nexts i

namespace Engine

-- A reduction that recalls nothing of the tree itself.
def reduceAnew {m : Type → Type} [Evaluator m] (engine : Engine m) (e : Expr) : m Expr :=
  match e with
  | .number _ | .symbol _ => return e
  | .nary op operands => do
    return (← engine.condense op (← operands.mapM engine.reduce)).1
  | .power base exponent => do
    let base ← engine.reduce base
    let exponent ← engine.reduce exponent
    return (← engine.condensePower base exponent).1

theorem reduceStep_eq {m : Type → Type} [Evaluator m] (engine : Engine m) (e : Expr) :
    engine.reduceStep e =
      if e.isTerminal then return e else remembering engine.config e (engine.reduceAnew e) := by
  cases e with
  | number | symbol | power => rfl
  | nary op operands => cases op <;> rfl

end Engine

namespace Lockstep

variable {m m' : Type → Type} {ι : Type} [Evaluator m] [Evaluator m']

-- Engines of one configuration whose three operations are in step.
structure Engines (lock : Lockstep m ι m') (engine : Engine m) (engines : ι → Engine m') :
    Prop where
  config : ∀ i, (engines i).config = engine.config
  reduce : ∀ e, lock.rel (engine.reduce e) fun i => (engines i).reduce e
  settle : ∀ e, lock.rel (engine.settle e) fun i => (engines i).settle e
  isEqual : ∀ x y, lock.rel (engine.isEqual x y) fun i => (engines i).isEqual x y

section

variable (lock : Lockstep m ι m')

theorem ofExcept (result : Except Failure α) :
    lock.rel (Evaluator.ofExcept result) fun _ => Evaluator.ofExcept result :=
  lock.ofOutcome _

theorem of_ite {p : Prop} [Decidable p] {yes no : m α} {yeses nos : ι → m' α}
    (ofYes : lock.rel yes yeses) (ofNo : lock.rel no nos) :
    lock.rel (if p then yes else no) fun i => if p then yeses i else nos i := by
  by_cases holds : p
  · simpa only [if_pos holds] using ofYes
  · simpa only [if_neg holds] using ofNo

theorem mapM [LawfulMonad m] [LawfulMonad m'] {compute : α → m β} {computes : ι → α → m' β}
    (each : ∀ a, lock.rel (compute a) fun i => computes i a) (items : List α) :
    lock.rel (items.mapM compute) fun i => items.mapM (computes i) := by
  induction items with
  | nil => simpa only [List.mapM_nil] using lock.pure []
  | cons item rest ih =>
    simp only [List.mapM_cons]
    exact lock.bind (each item) fun _ => lock.bind ih fun _ => lock.pure _

theorem attempt {first : m (Option α)} {firsts : ι → m' (Option α)} {second : m α}
    {seconds : ι → m' α} (left : lock.rel first firsts) (right : lock.rel second seconds) :
    lock.rel (Engine.attempt first second) fun i => Engine.attempt (firsts i) (seconds i) := by
  apply lock.bind left
  intro answer
  cases answer with
  | some result => exact lock.pure result
  | none => exact right

end

namespace Engines

variable {lock : Lockstep m ι m'} {engine : Engine m} {engines : ι → Engine m'}

theorem lighter (together : lock.Engines engine engines) (i : ι) (x y : Expr) :
    (engines i).lighter x y = engine.lighter x y := by
  unfold Engine.lighter Engine.weight
  rw [together.config]

theorem seek (together : lock.Engines engine engines) (x : Expr) (passed ys : List Expr) :
    lock.rel (engine.seek x passed ys) fun i => (engines i).seek x passed ys := by
  induction ys generalizing passed with
  | nil => exact lock.pure none
  | cons y ahead ih =>
    unfold Engine.seek
    exact lock.bind (together.isEqual x y) fun _ => lock.of_ite (lock.pure _) (ih (y :: passed))

theorem split (together : lock.Engines engine engines) (xs : List Expr) (cursor : Cursor) :
    lock.rel (engine.split xs cursor) fun i => (engines i).split xs cursor := by
  induction xs generalizing cursor with
  | nil => exact lock.pure _
  | cons x xs ih =>
    unfold Engine.split
    apply lock.bind (together.seek x cursor.passed cursor.ahead)
    intro sought
    cases sought with
    | some behind => exact lock.bind (ih behind) fun _ => lock.pure _
    | none => exact lock.bind (ih cursor.rewind) fun _ => lock.pure _

theorem findCommon (together : lock.Engines engine engines) (x y : Expr) :
    lock.rel (engine.findCommon x y) fun i => (engines i).findCommon x y :=
  lock.bind (lock.ofOutcome _) fun _ => together.split x.operands _

theorem factorSum (together : lock.Engines engine engines) (x y : Expr) :
    lock.rel (engine.factorSum x y) fun i => (engines i).factorSum x y := by
  unfold Engine.factorSum
  simp only [together.lighter]
  apply lock.bind (together.split x.operands _)
  intro found
  refine lock.of_ite (lock.pure none) (lock.bind (together.reduce _) fun reduced => ?_)
  exact lock.of_ite (lock.bind (together.reduce _) fun _ => lock.pure _) (lock.pure none)

theorem factorOutSum (together : lock.Engines engine engines) (x y : Expr) :
    lock.rel (engine.factorOutSum x y) fun i => (engines i).factorOutSum x y :=
  lock.bind (lock.ofOutcome _) fun _ => together.factorSum x y

theorem mergePowers (together : lock.Engines engine engines) (base exponent base' exponent' : Expr) :
    lock.rel (engine.mergePowers base exponent base' exponent')
      fun i => (engines i).mergePowers base exponent base' exponent' := by
  unfold Engine.mergePowers
  simp only [together.lighter]
  apply lock.bind (together.isEqual base base')
  intro equal
  exact lock.of_ite (lock.bind (together.reduce _) fun _ => lock.pure _) (lock.pure none)

theorem factorOutPower (together : lock.Engines engine engines) (x y : Expr) :
    lock.rel (engine.factorOutPower x y) fun i => (engines i).factorOutPower x y := by
  unfold Engine.factorOutPower
  split
  · exact together.mergePowers _ _ _ _
  · exact lock.ofOutcome _

theorem ifEqual (together : lock.Engines engine engines) (x y result : Expr) :
    lock.rel (engine.ifEqual x y result) fun i => (engines i).ifEqual x y result :=
  lock.bind (together.isEqual x y) fun _ => lock.pure _

theorem factor (together : lock.Engines engine engines) (op : Operator) (x y : Expr) :
    lock.rel (engine.factor op x y) fun i => (engines i).factor op x y := by
  cases op with
  | nary op =>
    cases op with
    | sum => exact lock.of_ite (together.ifEqual x y _) (together.factorSum _ _)
    | product => exact lock.of_ite (together.ifEqual x y _) (together.factorOutPower _ _)
  | power => exact lock.pure none

theorem foldNumbers (together : lock.Engines engine engines) (op : Operator) (x y : Expr) :
    lock.rel (engine.foldNumbers op x y) fun i => (engines i).foldNumbers op x y := by
  unfold Engine.foldNumbers
  simp only [together.config]
  split
  · exact lock.bind (lock.ofOutcome _) fun _ => lock.pure _
  · exact lock.pure none

theorem isLiteral (together : lock.Engines engine engines) (e : Expr) (n : Int) :
    lock.rel (engine.isLiteral e n) fun i => (engines i).isLiteral e n := by
  cases e with
  | number | symbol => exact lock.pure _
  | nary | power => exact together.isEqual _ _

theorem firstRule (together : lock.Engines engine engines) (rules : List Rule) :
    lock.rel (engine.firstRule rules) fun i => (engines i).firstRule rules := by
  induction rules with
  | nil => exact lock.pure none
  | cons rule rest ih =>
    unfold Engine.firstRule
    exact lock.bind (together.isLiteral _ _) fun _ => lock.of_ite (lock.pure _) ih

theorem combine (together : lock.Engines engine engines) (op : Operator) (x y : Expr) :
    lock.rel (engine.combine op x y) fun i => (engines i).combine op x y :=
  lock.attempt (together.foldNumbers op x y) <| lock.attempt (together.firstRule _) <|
    lock.attempt (together.factor op x y) (lock.pure _)

theorem merge (together : lock.Engines engine engines) (op : Operator) (x y : Expr) :
    lock.rel (engine.merge op x y) fun i => (engines i).merge op x y := by
  unfold Engine.merge
  simp only [together.lighter]
  exact lock.bind (together.combine op x y) fun _ => lock.pure _

theorem absorb (together : lock.Engines engine engines) (op : Operator) (x : Expr)
    (ys : List Expr) : lock.rel (engine.absorb op x ys) fun i => (engines i).absorb op x ys := by
  induction ys generalizing x with
  | nil => exact lock.pure _
  | cons y ys ih =>
    unfold Engine.absorb
    apply lock.bind (together.merge op x y)
    intro answer
    cases answer with
    | some merged => exact lock.bind (ih merged) fun _ => lock.pure _
    | none => exact lock.bind (ih x) fun _ => lock.pure _

theorem sweep (together : lock.Engines engine engines) (op : Operator) (turns : Nat)
    (es : List Expr) : lock.rel (engine.sweep op turns es) fun i => (engines i).sweep op turns es := by
  induction turns generalizing es with
  | zero => exact lock.pure _
  | succ turns ih =>
    cases es with
    | nil => exact lock.pure _
    | cons x ys =>
      unfold Engine.sweep
      apply lock.bind (together.absorb op x ys)
      intro absorbed
      exact lock.bind (ih absorbed.rest) fun _ => lock.pure _

theorem condense (together : lock.Engines engine engines) (op : Nary) (operands : List Expr) :
    lock.rel (engine.condense op operands) fun i => (engines i).condense op operands :=
  lock.bind (together.sweep _ _ operands) fun _ => lock.pure _

theorem condensePower (together : lock.Engines engine engines) (base exponent : Expr) :
    lock.rel (engine.condensePower base exponent)
      fun i => (engines i).condensePower base exponent := by
  apply lock.bind (together.merge .power base exponent)
  intro answer
  cases answer with
  | some merged => exact lock.pure _
  | none => exact lock.pure _

theorem reduceAnew [LawfulMonad m] [LawfulMonad m'] (together : lock.Engines engine engines)
    (e : Expr) : lock.rel (engine.reduceAnew e) fun i => (engines i).reduceAnew e := by
  cases e with
  | number | symbol => exact lock.pure _
  | nary op operands =>
    apply lock.bind (lock.mapM together.reduce operands)
    intro reduced
    exact lock.bind (together.condense op reduced) fun _ => lock.pure _
  | power base exponent =>
    apply lock.bind (together.reduce base)
    intro base
    apply lock.bind (together.reduce exponent)
    intro exponent
    exact lock.bind (together.condensePower base exponent) fun _ => lock.pure _

-- Whether reductions stay in step where they are recalled is for the evaluators to say.
theorem reduceStep [LawfulMonad m] [LawfulMonad m'] (together : lock.Engines engine engines)
    (e : Expr) (recalled : lock.rel (remembering engine.config e (engine.reduceAnew e))
      fun i => remembering engine.config e ((engines i).reduceAnew e)) :
    lock.rel (engine.reduceStep e) fun i => (engines i).reduceStep e := by
  simp only [Engine.reduceStep_eq, together.config]
  exact lock.of_ite (lock.pure e) recalled

theorem reduceAllTraced (es : List Expr)
    (each : ∀ e ∈ es, lock.rel (engine.reduceTraced e) fun i => (engines i).reduceTraced e) :
    lock.rel (engine.reduceAllTraced es) fun i => (engines i).reduceAllTraced es := by
  induction es with
  | nil => exact lock.pure _
  | cons e es ih =>
    unfold Engine.reduceAllTraced
    apply lock.bind (each e (by simp))
    intro _
    exact lock.bind (ih fun other member => each other (by simp [member])) fun _ => lock.pure _

theorem reduceTraced (together : lock.Engines engine engines) (e : Expr) :
    lock.rel (engine.reduceTraced e) fun i => (engines i).reduceTraced e := by
  induction e with
  | number | symbol => exact lock.pure _
  | nary op operands ih =>
    unfold Engine.reduceTraced
    apply lock.bind (reduceAllTraced operands ih)
    intro _
    exact lock.bind (together.condense op _) fun _ => lock.pure _
  | power base exponent ofBase ofExponent =>
    unfold Engine.reduceTraced
    refine lock.bind ofBase fun _ => lock.bind ofExponent fun _ => ?_
    exact lock.bind (together.condensePower _ _) fun _ => lock.pure _

theorem trace (together : lock.Engines engine engines) (e : Expr) :
    lock.rel (engine.trace e) fun i => (engines i).trace e :=
  lock.bind (together.reduceTraced e) fun _ => lock.pure _

theorem settleStep (together : lock.Engines engine engines) (e : Expr) :
    lock.rel (engine.settleStep e) fun i => (engines i).settleStep e := by
  unfold Engine.settleStep
  simp only [together.lighter]
  apply lock.bind (together.reduce e)
  intro again
  exact lock.of_ite (together.settle again) (lock.pure e)

theorem settled (together : lock.Engines engine engines) (e : Expr) :
    lock.rel (engine.settled e) fun i => (engines i).settled e :=
  lock.bind (together.reduce e) fun reduced => together.settle reduced

theorem pairOff (together : lock.Engines engine engines) (xs ys : List Expr) :
    lock.rel (engine.pairOff xs ys) fun i => (engines i).pairOff xs ys := by
  induction xs generalizing ys with
  | nil => exact lock.pure _
  | cons x xs ih =>
    unfold Engine.pairOff
    apply lock.bind (together.seek x [] ys)
    intro sought
    cases sought with
    | some cursor => exact ih cursor.all
    | none => exact lock.pure false

theorem compare (together : lock.Engines engine engines) (x y : Expr) :
    lock.rel (engine.compare x y) fun i => (engines i).compare x y := by
  unfold Engine.compare
  split
  · exact lock.pure _
  · exact lock.pure _
  · exact lock.of_ite (together.pairOff _ _) (lock.pure false)
  · exact lock.bind (together.isEqual _ _) fun _ =>
      lock.of_ite (together.isEqual _ _) (lock.pure false)
  · exact lock.pure false

theorem isEqualStep (together : lock.Engines engine engines) (x y : Expr) :
    lock.rel (engine.isEqualStep x y) fun i => (engines i).isEqualStep x y := by
  refine lock.bind (together.settled x) fun x' => lock.bind (together.settled y) fun y' => ?_
  exact together.compare x' y'

theorem combineValues (together : lock.Engines engine engines) (kind : Kind) (x y : Value) :
    lock.rel (engine.combineValues kind x y) fun i => (engines i).combineValues kind x y := by
  unfold Engine.combineValues
  split
  · exact lock.bind (lock.ofExcept _) fun _ => lock.bind (lock.ofExcept _) fun _ =>
      together.combine _ _ _
  · exact lock.ofOutcome _

theorem reduceValue (together : lock.Engines engine engines) (value : Value) :
    lock.rel (engine.reduceValue value) fun i => (engines i).reduceValue value :=
  lock.bind (lock.ofExcept _) together.reduce

theorem traceValue (together : lock.Engines engine engines) (value : Value) :
    lock.rel (engine.traceValue value) fun i => (engines i).traceValue value :=
  lock.bind (lock.ofExcept _) together.trace

theorem expandValue (together : lock.Engines engine engines) (value : Value) :
    lock.rel (engine.expandValue value) fun i => (engines i).expandValue value := by
  unfold Engine.expandValue
  simp only [together.config]
  exact lock.bind (lock.ofExcept _) fun _ => lock.ofOutcome _

theorem isEqualValues (together : lock.Engines engine engines) (x y : Value) :
    lock.rel (engine.isEqualValues x y) fun i => (engines i).isEqualValues x y := by
  refine lock.bind (lock.ofExcept _) fun a => lock.bind (together.settled a) fun x' => ?_
  refine lock.bind (lock.ofExcept _) fun b => lock.bind (together.settled b) fun y' => ?_
  exact together.compare x' y'

end Engines

end Lockstep

end SymbolicArith
