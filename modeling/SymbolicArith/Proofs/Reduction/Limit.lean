import SymbolicArith.Proofs.Reduction.Lockstep
import SymbolicArith.Proofs.Reduction.Steps

open SymbolicArith.Outcome

-- Depth does not change an answer. Every operation of a deeper engine extends that of a shallower
-- one, so a computation that ends at some depth ends with the same answer at all greater depths.
-- The engine without a limit has every answer that some depth gives.
namespace SymbolicArith.Engine

variable {config : Config} {shallow deep : Engine Outcome}

-- The second engine has the answers of the first.
structure Below (shallow deep : Engine Outcome) : Prop where
  config : shallow.config = deep.config
  reduce : ∀ e, (shallow.reduce e).ExtendedBy (deep.reduce e)
  settle : ∀ e, (shallow.settle e).ExtendedBy (deep.settle e)
  isEqual : ∀ x y, (shallow.isEqual x y).ExtendedBy (deep.isEqual x y)

def extending : Lockstep Outcome Unit Outcome where
  rel earlier later := earlier.ExtendedBy (later ())
  pure a := .refl (.done a)
  ofOutcome outcome := .refl outcome
  bind first next := first.bind next

namespace Below

theorem inStep (below : Below shallow deep) : extending.Engines shallow fun _ => deep :=
  ⟨fun _ => below.config.symm, below.reduce, below.settle, below.isEqual⟩

theorem split (below : Below shallow deep) (xs : List Expr) (cursor : Cursor) :
    (shallow.split xs cursor).ExtendedBy (deep.split xs cursor) :=
  below.inStep.split xs cursor

theorem factorSum (below : Below shallow deep) (x y : Expr) :
    (shallow.factorSum x y).ExtendedBy (deep.factorSum x y) :=
  below.inStep.factorSum x y

theorem factorOutPower (below : Below shallow deep) (x y : Expr) :
    (shallow.factorOutPower x y).ExtendedBy (deep.factorOutPower x y) :=
  below.inStep.factorOutPower x y

theorem factor (below : Below shallow deep) (op : Operator) (x y : Expr) :
    (shallow.factor op x y).ExtendedBy (deep.factor op x y) :=
  below.inStep.factor op x y

theorem combineValues (below : Below shallow deep) (kind : Kind) (x y : Value) :
    (shallow.combineValues kind x y).ExtendedBy (deep.combineValues kind x y) :=
  below.inStep.combineValues kind x y

theorem reduceStep (below : Below shallow deep) (e : Expr) :
    (shallow.reduceStep e).ExtendedBy (deep.reduceStep e) :=
  below.inStep.reduceStep e (below.inStep.reduceAnew e)

theorem reduceTraced (below : Below shallow deep) (e : Expr) :
    (shallow.reduceTraced e).ExtendedBy (deep.reduceTraced e) :=
  below.inStep.reduceTraced e

theorem settleStep (below : Below shallow deep) (e : Expr) :
    (shallow.settleStep e).ExtendedBy (deep.settleStep e) :=
  below.inStep.settleStep e

theorem settled (below : Below shallow deep) (e : Expr) :
    (shallow.settled e).ExtendedBy (deep.settled e) :=
  below.inStep.settled e

theorem isEqualStep (below : Below shallow deep) (x y : Expr) :
    (shallow.isEqualStep x y).ExtendedBy (deep.isEqualStep x y) :=
  below.inStep.isEqualStep x y

end Below

theorem within_below_succ (config : Config) (depth : Nat) :
    Below (within config depth) (within config (depth + 1)) := by
  induction depth with
  | zero => exact ⟨rfl, fun _ => .unfinished _, fun _ => .unfinished _, fun _ _ => .unfinished _⟩
  | succ depth ih =>
    have config : (within config (depth + 1)).config = (within config (depth + 1 + 1)).config := by
      rw [within_config, within_config]
    exact ⟨config, ih.reduceStep, ih.settleStep, ih.isEqualStep⟩

theorem within_below {depth deeper : Nat} (le : depth ≤ deeper) :
    Below (within config depth) (within config deeper) := by
  induction le with
  | refl => exact ⟨rfl, fun _ => .refl _, fun _ => .refl _, fun _ _ => .refl _⟩
  | @step deeper _ ih =>
    have next := within_below_succ config deeper
    exact ⟨ih.config.trans next.config, fun e => (ih.reduce e).trans (next.reduce e),
      fun e => (ih.settle e).trans (next.settle e),
      fun x y => (ih.isEqual x y).trans (next.isEqual x y)⟩

-- A computation with one and the same result at every depth from the bound on.
def Terminates (config : Config) (bound : Nat) (run : Engine Outcome → Outcome α) : Prop :=
  ∃ result, ∀ depth, bound ≤ depth → run (within config depth) = .done result

theorem Terminates.of_finishes {bound : Nat} {run : Engine Outcome → Outcome α}
    (extends' : ∀ {shallow deep}, Below shallow deep → (run shallow).ExtendedBy (run deep))
    (finishes : (run (within config bound)).Finishes) : Terminates config bound run := by
  obtain ⟨result, ran⟩ := finishes
  exact ⟨result, fun depth le => (extends' (within_below le)).eq_done ran⟩

open Classical in
-- What a chain of outcomes comes to, each of which extends the one before.
noncomputable def limit (chain : Nat → Outcome α) : Outcome α :=
  if ends : ∃ depth, chain depth ≠ .unfinished then chain ends.choose else .unfinished

theorem extendedBy_limit {chain : Nat → Outcome α}
    (extends' : ∀ {n m}, n ≤ m → (chain n).ExtendedBy (chain m)) (depth : Nat) :
    (chain depth).ExtendedBy (limit chain) := by
  by_cases cut : chain depth = .unfinished
  · exact .inl cut
  · have ends : ∃ depth, chain depth ≠ .unfinished := ⟨depth, cut⟩
    rw [limit, dif_pos ends]
    rcases Nat.le_total depth ends.choose with le | ge
    · exact extends' le
    · rcases extends' ge with cut' | same
      · exact absurd cut' ends.choose_spec
      · exact .inr same.symm

theorem limit_eq_done {chain : Nat → Outcome α} (ran : limit chain = .done result) :
    ∃ depth, chain depth = .done result := by
  unfold limit at ran
  split at ran
  · exact ⟨_, ran⟩
  · cases ran

theorem limit_unfailing {chain : Nat → Outcome α} (each : ∀ depth, (chain depth).Unfailing) :
    (limit chain).Unfailing := by
  unfold limit
  split
  · exact each _
  · exact nofun

-- The engine that no depth cuts short.
noncomputable def unbounded (config : Config) : Engine Outcome where
  config := config
  reduce e := limit fun depth => (within config depth).reduce e
  settle e := limit fun depth => (within config depth).settle e
  isEqual x y := limit fun depth => (within config depth).isEqual x y

theorem within_below_unbounded (config : Config) (depth : Nat) :
    Below (within config depth) (unbounded config) where
  config := within_config config depth
  reduce e := extendedBy_limit (fun le => (within_below le).reduce e) depth
  settle e := extendedBy_limit (fun le => (within_below le).settle e) depth
  isEqual x y := extendedBy_limit (fun le => (within_below le).isEqual x y) depth

-- A chain of computations that comes to one outcome and stays there.
def converging : Lockstep Outcome Nat Outcome where
  rel final chain := ∃ bound, ∀ depth, bound ≤ depth → chain depth = final
  pure _ := ⟨0, fun _ _ => rfl⟩
  ofOutcome _ := ⟨0, fun _ _ => rfl⟩
  bind {_ _ first firsts next nexts} ends rest := by
    obtain ⟨bound, ran⟩ := ends
    cases first with
    | failed | unfinished =>
      refine ⟨bound, fun depth le => ?_⟩
      simp only [ran depth le, failed_bind, unfinished_bind]
    | done a =>
      obtain ⟨bound', ran'⟩ := rest a
      refine ⟨max bound bound', fun depth le => ?_⟩
      simp only [ran depth (by omega), done_bind]
      exact ran' depth (by omega)

theorem limit_converges {chain : Nat → Outcome α}
    (extends' : ∀ {n m}, n ≤ m → (chain n).ExtendedBy (chain m)) :
    converging.rel (limit chain) chain := by
  by_cases ends : ∃ depth, chain depth ≠ .unfinished
  · obtain ⟨bound, finished⟩ := ends
    refine ⟨bound, fun depth le => ?_⟩
    have ended : chain depth ≠ .unfinished := fun cut =>
      finished (((extends' le).resolve_left finished).trans cut)
    exact (extendedBy_limit extends' depth).resolve_left ended
  · refine ⟨0, fun depth _ => ?_⟩
    rw [limit, dif_neg ends]
    by_contra ended
    exact ends ⟨depth, ended⟩

theorem unbounded_inStep (config : Config) :
    converging.Engines (unbounded config) (within config) where
  config depth := within_config config depth
  reduce e := limit_converges fun le => (within_below le).reduce e
  settle e := limit_converges fun le => (within_below le).settle e
  isEqual x y := limit_converges fun le => (within_below le).isEqual x y

theorem converging_unique {one other : Outcome α} {chain : Nat → Outcome α}
    (ends : converging.rel one chain) (ends' : converging.rel other chain) : one = other := by
  obtain ⟨bound, ran⟩ := ends
  obtain ⟨bound', ran'⟩ := ends'
  exact (ran (max bound bound') (by omega)).symm.trans (ran' (max bound bound') (by omega))

theorem converging_succ {final : Outcome α} {chain : Nat → Outcome α}
    (ends : converging.rel final chain) : converging.rel final fun depth => chain (depth + 1) := by
  obtain ⟨bound, ran⟩ := ends
  exact ⟨bound, fun depth le => ran (depth + 1) (by omega)⟩

-- The three operations of the unlimited engine are one step of its own.
theorem unbounded_reduce (config : Config) (e : Expr) :
    (unbounded config).reduce e = (unbounded config).reduceStep e :=
  have inStep := unbounded_inStep config
  converging_unique (converging_succ (inStep.reduce e)) (inStep.reduceStep e (inStep.reduceAnew e))

theorem unbounded_settle (config : Config) (e : Expr) :
    (unbounded config).settle e = (unbounded config).settleStep e :=
  have inStep := unbounded_inStep config
  converging_unique (converging_succ (inStep.settle e)) (inStep.settleStep e)

theorem unbounded_isEqual (config : Config) (x y : Expr) :
    (unbounded config).isEqual x y = (unbounded config).isEqualStep x y :=
  have inStep := unbounded_inStep config
  converging_unique (converging_succ (inStep.isEqual x y)) (inStep.isEqualStep x y)

theorem unbounded_reduceStep (ran : (unbounded config).reduce e = .done r) :
    (unbounded config).reduceStep e = .done r := by rw [← unbounded_reduce, ran]

theorem unbounded_settleStep (ran : (unbounded config).settle e = .done r) :
    (unbounded config).settleStep e = .done r := by rw [← unbounded_settle, ran]

theorem unbounded_isEqualStep (ran : (unbounded config).isEqual x y = .done b) :
    (unbounded config).isEqualStep x y = .done b := by rw [← unbounded_isEqual, ran]

-- A computation has this answer from some depth on.
def Answers (config : Config) (run : Engine Outcome → Outcome α) (result : α) : Prop :=
  ∃ bound, ∀ depth, bound ≤ depth → run (within config depth) = .done result

theorem Answers.unique {run : Engine Outcome → Outcome α} {result result' : α}
    (one : Answers config run result) (other : Answers config run result') : result = result' := by
  obtain ⟨bound, ran⟩ := one
  obtain ⟨bound', ran'⟩ := other
  have same := (ran (max bound bound') (Nat.le_max_left _ _)).symm.trans
    (ran' _ (Nat.le_max_right _ _))
  exact done.inj same

-- The answers of a computation are those of the unlimited engine.
theorem answers_iff {run : Engine Outcome → Outcome α} {result : α}
    (converges : converging.rel (run (unbounded config)) fun depth => run (within config depth)) :
    Answers config run result ↔ run (unbounded config) = .done result := by
  constructor
  · exact fun answers => converging_unique converges answers
  · intro answer
    rw [answer] at converges
    exact converges

theorem answers_reduce {e r : Expr} :
    Answers config (·.reduce e) r ↔ (unbounded config).reduce e = .done r :=
  answers_iff ((unbounded_inStep config).reduce e)

theorem answers_settled {e s : Expr} :
    Answers config (·.settled e) s ↔ (unbounded config).settled e = .done s :=
  answers_iff ((unbounded_inStep config).settled e)

theorem answers_isEqual {x y : Expr} {equal : Bool} :
    Answers config (·.isEqual x y) equal ↔ (unbounded config).isEqual x y = .done equal :=
  answers_iff ((unbounded_inStep config).isEqual x y)

theorem answers_combine {op : Operator} {x y r : Expr} :
    Answers config (·.combine op x y) r ↔ (unbounded config).combine op x y = .done r :=
  answers_iff ((unbounded_inStep config).combine op x y)

theorem answers_pairOff {xs ys : List Expr} {paired : Bool} :
    Answers config (·.pairOff xs ys) paired ↔ (unbounded config).pairOff xs ys = .done paired :=
  answers_iff ((unbounded_inStep config).pairOff xs ys)

theorem Answers.of_run {run : Engine Outcome → Outcome α} {result : α}
    (extends' : ∀ {shallow deep}, Below shallow deep → (run shallow).ExtendedBy (run deep))
    (ran : run (within config depth) = .done result) : Answers config run result :=
  ⟨depth, fun _ le => (extends' (within_below le)).eq_done ran⟩

end SymbolicArith.Engine
