import SymbolicArith.Proofs.Reduction.Shrinking

open SymbolicArith.Expr

-- Reduction and equality. A tree settles when its reductions stop getting lighter; since a
-- reduction that changes a reduced tree makes it lighter, a tree and its reduction settle to the
-- same tree, and so they are equal.
namespace SymbolicArith

namespace Engine

variable {engine : Engine Outcome} {e r s t : Expr}

-- A flat tree and its reduction settle together.
theorem Complete.settle_reduced (complete : Complete engine) (exact : e.Exact) (flat : e.Flat)
    (run : engine.reduce e = .done r) (settles : engine.settle e = .done s) :
    engine.settle r = .done s := by
  rcases complete.reduce_lighter exact flat run with rfl | lighter
  · exact settles
  · obtain ⟨again, reduced, answer⟩ := settleStep_done (complete.settleStep settles)
    rw [run] at reduced
    cases Outcome.done.inj reduced
    rwa [if_pos ((lighter_iff complete.standard).mpr lighter)] at answer

theorem Complete.settled_reduced (complete : Complete engine) (exact : t.Exact)
    (run : engine.reduce t = .done r) :
    ∃ s, s.Exact ∧ engine.settle r = .done s ∧ engine.settled t = .done s := by
  have exactR := complete.tame.exact exact run
  obtain ⟨s, settles⟩ := complete.settles exactR
  exact ⟨s, (complete.tame.settled exactR settles).1, settles, by simp [settled, run, settles]⟩

theorem Complete.isEqual_reduce (complete : Complete engine) (exact : t.Exact)
    (run : engine.reduce t = .done r) :
    engine.isEqual t r = .done true ∧ engine.isEqual r t = .done true := by
  have exactR := complete.tame.exact exact run
  have flatR := complete.flat run
  obtain ⟨again, rerun⟩ := complete.reduces exactR
  obtain ⟨s, exactS, settles, ofT⟩ := complete.settled_reduced exact run
  have settles' := complete.settle_reduced exactR flatR rerun settles
  have ofR : engine.settled r = .done s := by simp [settled, rerun, settles']
  have each : ∀ o ∈ s.operands, engine.isEqual o o = .done true := by
    intro o member
    exact complete.isEqual_self (exactS.operand member)
  exact ⟨complete.isEqual_of_settled exact exactR ofT ofR each,
    complete.isEqual_of_settled exactR exact ofR ofT each⟩

-- What a flat tree settles to is its own reduction, and whatever reductions keep holds of it.
theorem Complete.settle_kept {holds : Expr → Prop} (complete : Complete engine)
    (each : ∀ {e r}, holds e → engine.reduce e = .done r → holds r) (exact : e.Exact)
    (flat : e.Flat) (all : holds e) (run : engine.settle e = .done r) :
    Normal engine r ∧ holds r := by
  induction mass : e.mass using Nat.strong_induction_on generalizing e with
  | _ n ih =>
    obtain ⟨again, reduced, answer⟩ := settleStep_done (complete.settleStep run)
    have kept := complete.tame.exact exact reduced
    split at answer
    · rename_i lighter
      have lighter := (lighter_iff complete.standard).mp lighter
      exact ih again.mass (by omega) kept (complete.flat reduced) (each all reduced) answer rfl
    · rename_i heavy
      rw [lighter_iff complete.standard] at heavy
      obtain rfl := (complete.reduce_lighter exact flat reduced).resolve_right heavy
      exact answer ▸ ⟨⟨exact, flat, reduced⟩, all⟩

-- What any exact tree settles to.
theorem Complete.settled_normal (complete : Complete engine) (exact : t.Exact)
    (run : engine.settled t = .done s) : Normal engine s := by
  obtain ⟨r, ran, settles⟩ := Outcome.bind_eq_done.mp run
  have exactR := complete.tame.exact exact ran
  have kept : ∀ {e r : Expr}, True → engine.reduce e = .done r → True := fun _ _ => trivial
  exact (complete.settle_kept kept exactR (complete.flat ran) trivial settles).1

theorem Complete.isEqual_own_settled (complete : Complete engine) (exact : t.Exact)
    (run : engine.settled t = .done s) : engine.isEqual t s = .done true := by
  have normal := complete.settled_normal exact run
  refine complete.isEqual_of_settled exact normal.exact run (normal.settled complete) ?_
  exact fun o member => complete.isEqual_self (normal.exact.operand member)

-- Under the standard weights a tree is found equal to its reduction, and the reduction of that to
-- the reduction itself, at every depth above four times the mass of the tree.
theorem reduce_stays_equal {config : Config} (standard : config.Standard) (exact : t.Exact) :
    ∃ r r', ∀ depth, 4 * t.mass + 2 ≤ depth →
      (within config depth).reduce t = .done r ∧
      (within config depth).isEqual t r = .done true ∧
      (within config depth).reduce r = .done r' ∧
      (within config depth).isEqual r' r = .done true := by
  have complete := unbounded_complete standard
  obtain ⟨r, run⟩ := complete.reduces exact
  have exactR := complete.tame.exact exact run
  have light := complete.light run
  obtain ⟨r', rerun⟩ := complete.reduces exactR
  have exactR' := complete.tame.exact exactR rerun
  have light' := complete.light rerun
  refine ⟨r, r', ?_⟩
  intro depth deep
  have capable := within_capable standard depth
  have below := within_below_unbounded config depth
  have demand := t.demand_le
  have demandR := r.demand_le
  have positive := mass_pos t
  refine ⟨?_, ?_, ?_, ?_⟩
  · exact (below.reduce t).eq_of_finishes (capable.reduce exact (by omega)) run
  · exact (below.isEqual t r).eq_of_finishes (capable.isEqual exact exactR (by omega))
      (complete.isEqual_reduce exact run).1
  · exact (below.reduce r).eq_of_finishes (capable.reduce exactR (by omega)) rerun
  · exact (below.isEqual r' r).eq_of_finishes (capable.isEqual exactR' exactR (by omega))
      (complete.isEqual_reduce exactR rerun).2

-- The quotient of x by x is first reduced to x ^ 0, and that to 1.
theorem reduce_stays_equal_of_quotient :
    ∃ r r', ∀ depth, 8014 ≤ depth →
      (within {} depth).reduce (product [symbol "x", power (symbol "x") (ofInt (-1))]) = .done r ∧
      (within {} depth).isEqual (product [symbol "x", power (symbol "x") (ofInt (-1))]) r =
        .done true ∧
      (within {} depth).reduce r = .done r' ∧
      (within {} depth).isEqual r' r = .done true := by
  have exact : (product [symbol "x", power (symbol "x") (ofInt (-1))]).Exact := by decide
  have standard : ({} : Config).Standard := by decide
  have mass : (product [symbol "x", power (symbol "x") (ofInt (-1))]).mass = 2003 := by simp
  obtain ⟨r, r', equal⟩ := reduce_stays_equal standard exact
  exact ⟨r, r', fun depth deep => equal depth (by omega)⟩

-- Under the standard weights a reduction of a flat tree leaves the tree as it is or makes it lighter,
-- and what any tree settles to is a fixed point of reduction.
theorem reduce_shrinks_strictly {config : Config} (standard : config.Standard) (exact : t.Exact) :
    (∃ r, Answers config (·.reduce t) r ∧ (t.Flat → r = t ∨ r.weight config < t.weight config)) ∧
    ∃ s, Answers config (·.settled t) s ∧ Answers config (·.reduce s) s := by
  have complete := unbounded_complete standard
  constructor
  · obtain ⟨r, ran⟩ := complete.reduces exact
    refine ⟨r, answers_reduce.mpr ran, fun flat => ?_⟩
    rw [weight_eq_mass standard, weight_eq_mass standard, Int.ofNat_lt]
    exact complete.reduce_lighter exact flat ran
  · obtain ⟨s, settled⟩ := complete.settledFinishes exact
    exact ⟨s, answers_settled.mpr settled,
      answers_reduce.mpr (complete.settled_normal exact settled).fixed⟩

-- The sum x + 1 - 1 is first reduced to x + 0, which is lighter, and then to x, which stays.
theorem reduce_shrinks_strictly_of_leftover_zero :
    (sum [symbol "x", zero]).weight {} < (sum [symbol "x", one, minusOne]).weight {} ∧
      Answers {} (·.settled (sum [symbol "x", one, minusOne])) (symbol "x") ∧
      Answers {} (·.reduce (symbol "x")) (symbol "x") := by
  have standard : ({} : Config).Standard := by decide
  have exact : (sum [symbol "x", one, minusOne]).Exact := by decide
  have flat : (sum [symbol "x", one, minusOne]).Flat := by decide
  obtain ⟨⟨r, reduced, smaller⟩, s, settled, fixed⟩ := reduce_shrinks_strictly standard exact
  have once : (within {} 6).reduce (sum [symbol "x", one, minusOne]) =
      .done (sum [symbol "x", zero]) := by cbv
  have twice : (within {} 6).settled (sum [symbol "x", one, minusOne]) = .done (symbol "x") := by
    cbv
  obtain rfl := reduced.unique (.of_run (fun below => below.reduce _) once)
  obtain rfl := settled.unique (.of_run (fun below => below.settled _) twice)
  exact ⟨(smaller flat).resolve_left (by decide), settled, fixed⟩

end Engine
end SymbolicArith
