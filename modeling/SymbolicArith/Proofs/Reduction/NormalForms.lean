import SymbolicArith.Proofs.Reduction.Shrinking

open SymbolicArith.Expr SymbolicArith.Outcome

-- The trees that a reduction leaves as they are. A composite tree is one of them exactly if its operands
-- are and no two of them, in their order, combine to something lighter than their plain node. Merges
-- cannot undo one another, since a reduction that changes a tree makes it lighter.
namespace SymbolicArith

namespace Engine

variable {engine : Engine Outcome} {op : Operator} {t x y : Expr}

theorem not_lighter :
    ¬ engine.lighter x y ↔ y.weight engine.config ≤ x.weight engine.config := by
  rw [lighter, weight, weight, decide_eq_true_iff, Int.not_lt]

theorem merge_eq_none : engine.merge op x y = .done none ↔ ∃ r, engine.combine op x y = .done r ∧
    (op.plain x y).weight engine.config ≤ r.weight engine.config := by
  constructor
  · intro refused
    obtain ⟨r, combined, heavy⟩ := merge_none refused
    exact ⟨r, combined, not_lighter.mp heavy⟩
  · rintro ⟨r, combined, heavy⟩
    simp [merge, combined, not_lighter.mpr heavy]

theorem Normal.operands (complete : Complete engine) (normal : Normal engine t)
    (own : t.kind = op.kind) : (∀ o ∈ t.operands, Normal engine o) ∧
      t.operands.Pairwise fun x y => engine.merge op x y = .done none := by
  cases t with
  | number | symbol => cases own
  | nary op' es =>
    obtain rfl : .nary op' = op := Kind.composite.inj own
    exact normal.nary_operands complete
  | power base exponent =>
    obtain rfl : .power = op := Kind.composite.inj own
    obtain ⟨⟨ofBase, ofExponent⟩, refused⟩ := normal.power_operands complete
    simp [Expr.operands, ofBase, ofExponent, refused]

-- A pass over operands that are refused in pairs does nothing.
theorem Normal.of_operands (complete : Complete engine) (exact : t.Exact) (flat : t.Flat)
    (own : t.kind = op.kind) (each : ∀ o ∈ t.operands, Normal engine o)
    (refused : t.operands.Pairwise fun x y => engine.merge op x y = .done none) :
    Normal engine t := by
  cases t with
  | number | symbol => cases own
  | nary op' es =>
    obtain rfl : .nary op' = op := Kind.composite.inj own
    obtain ⟨⟨long, others⟩, _⟩ := flat_nary.mp flat
    have joined := Normal.sublist complete each others refused (.refl es)
    rwa [Nary.join_of_kind_ne long others] at joined
  | power base exponent =>
    obtain rfl : .power = op := Kind.composite.inj own
    have none : engine.merge .power base exponent = .done none := by
      simpa [Expr.operands] using refused
    have fixedBase := (each base (by simp [Expr.operands])).fixed
    have fixedExponent := (each exponent (by simp [Expr.operands])).fixed
    refine ⟨exact, flat, ?_⟩
    obtain ⟨r, ran⟩ := complete.reduces exact
    cases reduceStep_reduced (complete.reduceStep ran) with
    | terminal terminal => cases terminal
    | power ofBase ofExponent =>
      cases fixedBase.symm.trans ofBase
      cases fixedExponent.symm.trans ofExponent
      exact ran
    | merged ofBase ofExponent accepted =>
      cases fixedBase.symm.trans ofBase
      cases fixedExponent.symm.trans ofExponent
      cases none.symm.trans accepted

-- Under the standard weights the reduction of a flat composite tree is the tree itself exactly if each
-- operand is its own reduction and no operand merges with a later one.
theorem reduce_eq_self_iff {config : Config} (standard : config.Standard) (exact : t.Exact)
    (flat : t.Flat) (own : t.kind = op.kind) : ∃ r, Answers config (·.reduce t) r ∧
      (r = t ↔ (∀ o ∈ t.operands, Answers config (·.reduce o) o) ∧
        t.operands.Pairwise fun x y => ∃ combined, Answers config (·.combine op x y) combined ∧
          (op.plain x y).weight config ≤ combined.weight config) := by
  have complete := unbounded_complete standard
  obtain ⟨r, ran⟩ := complete.reduces exact
  refine ⟨r, answers_reduce.mpr ran, ?_⟩
  simp only [answers_reduce, answers_combine]
  constructor
  · rintro rfl
    have normal : Normal (unbounded config) r := ⟨exact, flat, ran⟩
    obtain ⟨each, refused⟩ := normal.operands complete own
    exact ⟨fun o member => (each o member).fixed, refused.imp merge_eq_none.mp⟩
  · rintro ⟨each, heavy⟩
    have operands : ∀ o ∈ t.operands, Normal (unbounded config) o := fun o member =>
      ⟨exact.operand member, flat.operand member, each o member⟩
    have normal := Normal.of_operands complete exact flat own operands
      (heavy.imp merge_eq_none.mpr)
    exact done.inj (ran.symm.trans normal.fixed)

-- The terms (x + 2) * y and (x + 2) * y * x have factors in common, and still their sum is its own
-- reduction: taking (x + 2) * y out leaves 1 + x, which gets no lighter.
theorem reduce_eq_self_iff_of_shared_factors :
    let first := product [sum [symbol "x", two], symbol "y"]
    let second := product [sum [symbol "x", two], symbol "y", symbol "x"]
    Answers {} (·.reduce (sum [first, second])) (sum [first, second]) ∧
      Answers {} (·.reduce first) first ∧ Answers {} (·.reduce second) second ∧
      ∃ combined, Answers {} (·.combine .sum first second) combined ∧
        (Operator.sum.plain first second).weight {} ≤ combined.weight {} := by
  intro first second
  have ran : (within {} 12).reduce (sum [first, second]) = .done (sum [first, second]) := by cbv
  have standard : ({} : Config).Standard := by decide
  have own : (sum [first, second]).kind = Operator.sum.kind := rfl
  obtain ⟨r, answer, fixed⟩ := reduce_eq_self_iff standard (t := sum [first, second]) (by decide)
    (by decide) own
  obtain rfl := answer.unique (.of_run (fun below => below.reduce _) ran)
  obtain ⟨each, heavy⟩ := fixed.mp rfl
  exact ⟨answer, each first (by simp [operands]), each second (by simp [operands]),
    (List.pairwise_cons.mp heavy).1 second (by simp)⟩

end Engine
end SymbolicArith
