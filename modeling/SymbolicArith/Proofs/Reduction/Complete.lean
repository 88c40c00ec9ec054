import SymbolicArith.Proofs.Reduction.Soundness
import SymbolicArith.Proofs.Reduction.Termination

open SymbolicArith.Expr SymbolicArith.Outcome

-- Complete engines. Such an engine has an answer for every exact tree, the one that its own steps
-- give; under the standard weights the engine that no depth cuts short is complete. In a complete
-- engine every tree equals itself, and a tree that reduces to itself is already settled.
namespace SymbolicArith

namespace Engine

structure Complete (engine : Engine Outcome) : Prop where
  capable : ∀ room, Capable engine room
  flat : ∀ {e r}, engine.reduce e = .done r → r.Flat
  reduceStep : ∀ {e r}, engine.reduce e = .done r → engine.reduceStep e = .done r
  settleStep : ∀ {e r}, engine.settle e = .done r → engine.settleStep e = .done r
  isEqualStep : ∀ {x y b}, engine.isEqual x y = .done b → engine.isEqualStep x y = .done b

theorem unbounded_tame {config : Config} (standard : config.Standard) :
    (unbounded config).Tame where
  standard := standard
  neverGrows e r run := by
    obtain ⟨depth, ran⟩ := limit_eq_done run
    exact within_neverGrows standard depth e r ran
  exact exact run := by
    obtain ⟨depth, ran⟩ := limit_eq_done run
    exact reduce_exact exact ran
  settled exact run := by
    obtain ⟨depth, ran⟩ := limit_eq_done run
    exact (within_tame standard depth).settled exact ran

theorem unbounded_complete {config : Config} (standard : config.Standard) :
    (unbounded config).Complete where
  capable room := by
    have below := within_below_unbounded config room
    have capable := within_capable standard room
    refine ⟨unbounded_tame standard, ?_, ?_, ?_⟩
    · intro e exact enough
      obtain ⟨r, ran⟩ := capable.reduce exact enough
      exact ⟨r, (below.reduce e).eq_done ran⟩
    · intro e exact enough
      obtain ⟨r, ran⟩ := capable.settle exact enough
      exact ⟨r, (below.settle e).eq_done ran⟩
    · intro x y left right enough
      obtain ⟨b, ran⟩ := capable.isEqual left right enough
      exact ⟨b, (below.isEqual x y).eq_done ran⟩
  flat run := by
    obtain ⟨depth, ran⟩ := limit_eq_done run
    exact reduce_flat ran
  reduceStep := unbounded_reduceStep
  settleStep := unbounded_settleStep
  isEqualStep := unbounded_isEqualStep

theorem unbounded_sound {rho : String → ℚ} (config : Config) : Sound rho (unbounded config) where
  reduce regular run := by
    obtain ⟨depth, ran⟩ := limit_eq_done run
    exact (within_sound config depth).reduce regular ran
  settle regular run := by
    obtain ⟨depth, ran⟩ := limit_eq_done run
    exact (within_sound config depth).settle regular ran
  isEqual left right run := by
    obtain ⟨depth, ran⟩ := limit_eq_done run
    exact (within_sound config depth).isEqual left right ran

variable {engine : Engine Outcome} {op : Nary} {x y e r : Expr} {es : List Expr}

theorem pairOff_self (each : ∀ e ∈ es, engine.isEqual e e = .done true) :
    engine.pairOff es es = .done true := by
  induction es with
  | nil => rfl
  | cons e es ih =>
    have rest := ih fun o member => each o (by simp [member])
    simpa [pairOff, seek, each e (by simp), Cursor.all] using rest

theorem compare_self (exact : e.Exact)
    (each : ∀ o ∈ e.operands, engine.isEqual o o = .done true) :
    engine.compare e e = .done true := by
  cases e with
  | number value =>
    obtain ⟨q, is⟩ := exact.number
    simp [compare, Literal.equals_eq is is]
  | symbol name => simp [compare]
  | nary op es => simpa [compare, operands] using pairOff_self each
  | power base exponent =>
    have bases := each base (by simp [operands])
    have exponents := each exponent (by simp [operands])
    simp [compare, bases, exponents]

namespace Complete

theorem tame (complete : Complete engine) : Tame engine := (complete.capable 0).toTame

theorem standard (complete : Complete engine) : engine.config.Standard := complete.tame.standard

theorem light (complete : Complete engine) (run : engine.reduce e = .done r) : r.mass ≤ e.mass :=
  complete.tame.neverGrows e r run

theorem reduces (complete : Complete engine) (exact : e.Exact) : (engine.reduce e).Finishes :=
  (complete.capable _).reduce exact (Nat.lt_succ_self _)

theorem settles (complete : Complete engine) (exact : e.Exact) : (engine.settle e).Finishes :=
  (complete.capable _).settle exact (Nat.lt_succ_self _)

theorem compares (complete : Complete engine) (left : x.Exact) (right : y.Exact) :
    (engine.isEqual x y).Finishes :=
  (complete.capable _).isEqual left right (Nat.lt_succ_self _)

theorem settledFinishes (complete : Complete engine) (exact : e.Exact) :
    (engine.settled e).Finishes :=
  (complete.capable _).settledFinishes exact (Nat.lt_succ_self _)

-- Trees that settle to one tree are equal if its operands are equal to themselves.
theorem isEqual_of_settled {s : Expr} (complete : Complete engine) (left : x.Exact) (right : y.Exact)
    (ofX : engine.settled x = .done s) (ofY : engine.settled y = .done s)
    (each : ∀ o ∈ s.operands, engine.isEqual o o = .done true) :
    engine.isEqual x y = .done true := by
  obtain ⟨exact, _⟩ := (complete.capable 0).settled_kept left ofX
  have same : engine.compare s s = .done true := compare_self exact each
  obtain ⟨b, ran⟩ := complete.compares left right
  have step := complete.isEqualStep ran
  simp only [Engine.isEqualStep, ofX, ofY, done_bind, same, done.injEq] at step
  rw [ran, step]

theorem isEqual_self (complete : Complete engine) (exact : e.Exact) :
    engine.isEqual e e = .done true := by
  -- the operands of what a tree settles to are lighter than the tree
  induction mass : e.mass using Nat.strong_induction_on generalizing e with
  | _ n ih =>
    obtain ⟨s, settled⟩ := complete.settledFinishes exact
    obtain ⟨exactS, light⟩ := (complete.capable 0).settled_kept exact settled
    apply complete.isEqual_of_settled exact exact settled settled
    intro o member
    have lighter := operand_mass_lt member
    exact ih o.mass (by omega) (exactS.operand member) rfl

end Complete

-- A flat exact tree that is its own reduction.
structure Normal (engine : Engine Outcome) (e : Expr) : Prop where
  exact : e.Exact
  flat : e.Flat
  fixed : engine.reduce e = .done e

namespace Normal

theorem terminal (complete : Complete engine) (exact : e.Exact) (terminal : e.isTerminal) :
    Normal engine e := by
  refine ⟨exact, flat_terminal terminal, ?_⟩
  obtain ⟨r, ran⟩ := complete.reduces exact
  cases e with
  | number | symbol =>
    cases reduceStep_reduced (complete.reduceStep ran)
    exact ran
  | nary | power => cases terminal

theorem ofInt (complete : Complete engine) (n : Int) : Normal engine (ofInt n) :=
  .terminal complete (exact_ofInt n) rfl

theorem settle (complete : Complete engine) (normal : Normal engine e) :
    engine.settle e = .done e := by
  obtain ⟨r, ran⟩ := complete.settles normal.exact
  obtain ⟨again, reduced, answer⟩ := settleStep_done (complete.settleStep ran)
  obtain rfl : e = again := by simpa [normal.fixed] using reduced
  have same : ¬ engine.lighter e e := by simp [lighter_iff complete.standard]
  rw [if_neg same] at answer
  rw [ran, answer]

theorem settled (complete : Complete engine) (normal : Normal engine e) :
    engine.settled e = .done e := by
  simp [Engine.settled, normal.fixed, normal.settle complete]

theorem agree (complete : Complete engine) (left : Normal engine x) (right : Normal engine y)
    (equal : engine.isEqual x y = .done true) : Agree engine x y := by
  obtain ⟨x', y', ofX, ofY, agree⟩ := isEqualStep_true (complete.isEqualStep equal)
  obtain rfl : x = x' := by simpa [left.settled complete] using ofX
  obtain rfl : y = y' := by simpa [right.settled complete] using ofY
  exact agree

theorem isNumber (complete : Complete engine) (normal : Normal engine e) {n : Int}
    (equal : engine.isEqual e (Expr.ofInt n) = .done true ∨
      engine.isEqual (Expr.ofInt n) e = .done true) : e.IsNumber n := by
  have number := Normal.ofInt complete n
  rcases equal with equal | equal
  · cases normal.agree complete number equal with
    | number same =>
      obtain ⟨q, is⟩ := normal.exact.number
      simpa [Literal.equals_eq is (Literal.rational?_whole n), is] using same
  · cases number.agree complete normal equal with
    | number same =>
      obtain ⟨q, is⟩ := normal.exact.number
      simpa [Literal.equals_eq (Literal.rational?_whole n) is, is, eq_comm] using same

end Normal

end Engine
end SymbolicArith
