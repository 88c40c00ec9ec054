import SymbolicArith.Proofs.Reduction.NormalForms
import SymbolicArith.Proofs.Reduction.Replay

open SymbolicArith.Expr SymbolicArith.Outcome

-- How many merges a reduction records. A pass makes one operand out of two with each of them and leaves
-- at least one, so that a flat tree has fewer merges than leaves. Without a merge the tree comes back as
-- it was; under the standard weights it comes back as it was in no other case.
namespace SymbolicArith

namespace Expr

mutual

-- The numbers and symbols of a tree.
def leafCount : Expr → Nat
  | .number _ | .symbol _ => 1
  | .nary _ operands => leafCounts operands
  | .power base exponent => base.leafCount + exponent.leafCount

def leafCounts : List Expr → Nat
  | [] => 0
  | e :: es => e.leafCount + leafCounts es

end

@[simp] theorem leafCount_number {value : Literal} : (number value).leafCount = 1 := by
  rw [leafCount]
@[simp] theorem leafCount_symbol : (symbol name).leafCount = 1 := by rw [leafCount]
@[simp] theorem leafCount_nary {op : Nary} {es : List Expr} :
    (nary op es).leafCount = leafCounts es := by
  rw [leafCount]
@[simp] theorem leafCount_power :
    (power base exponent).leafCount = base.leafCount + exponent.leafCount := by
  rw [leafCount]
@[simp] theorem leafCounts_nil : leafCounts [] = 0 := by rw [leafCounts]
@[simp] theorem leafCounts_cons {e : Expr} {es : List Expr} :
    leafCounts (e :: es) = e.leafCount + leafCounts es := by
  rw [leafCounts]

end Expr

namespace Engine

variable {engine : Engine Outcome} {op : Operator} {e r t : Expr}
  {xs ys es : List Expr} {results : List (Expr × List MergeStep)} {steps : List MergeStep}

theorem Passed.of_length (passed : Passed engine op xs ys) (kept : ys.length = xs.length) :
    ys = xs := by
  cases passed with
  | refused => rfl
  | merged first rest =>
    have shorter := first.length
    have later := pass_length_le rest
    omega

theorem traced_length_le
    (below : List.Forall₂ (fun e result => engine.reduceTraced e = .done result) es results)
    (each : ∀ e ∈ es, ∀ {r steps}, engine.reduceTraced e = .done (r, steps) →
      steps.length < e.leafCount) :
    (results.flatMap Prod.snd).length + es.length ≤ leafCounts es := by
  induction below with
  | nil => simp
  | cons ran _ ih =>
    have first := each _ (by simp) ran
    have rest := ih fun o member => each o (by simp [member])
    simp only [List.flatMap_cons, List.length_append, List.length_cons, leafCounts_cons]
    omega

theorem reduceTraced_length_lt (flat : e.Flat)
    (ran : engine.reduceTraced e = .done (r, steps)) : steps.length < e.leafCount := by
  induction e generalizing r steps with
  | number | symbol =>
    cases reduceTraced_traced ran
    simp
  | nary op es ih =>
    cases reduceTraced_traced ran with
    | terminal terminal => cases terminal
    | @nary _ _ rest results later below pass =>
      obtain ⟨⟨long, _⟩, flats⟩ := flat_nary.mp flat
      have ofOperands : (results.flatMap Prod.snd).length + es.length ≤ leafCounts es :=
        traced_length_le below fun o member _ _ ran => ih o member (flats o member) ran
      have merged := sweep_length pass
      have length := below.length_eq
      rw [List.length_map] at merged
      have some : results.map Prod.fst ≠ [] := List.length_pos_iff.mp (by simp; omega)
      have left : rest ≠ [] := pass_ne_nil (sweep_passed (Nat.le_refl _) pass).merges some
      have positive := List.length_pos_iff.mpr left
      rw [leafCount_nary, List.length_append]
      omega
  | power base exponent ofBase ofExponent =>
    obtain ⟨flatBase, flatExponent⟩ := flat_power.mp flat
    rw [leafCount_power]
    cases reduceTraced_traced ran with
    | terminal terminal => cases terminal
    | power first second =>
      have left := ofBase flatBase first
      have right := ofExponent flatExponent second
      rw [List.length_append]
      omega
    | merged first second =>
      have left := ofBase flatBase first
      have right := ofExponent flatExponent second
      rw [List.length_append, List.length_append, List.length_singleton]
      omega

-- Operands that record nothing come back as they were.
theorem traced_unchanged
    (below : List.Forall₂ (fun e result => engine.reduceTraced e = .done result) es results)
    (each : ∀ e ∈ es, ∀ {r steps}, engine.reduceTraced e = .done (r, steps) → steps = [] → r = e)
    (none : results.flatMap Prod.snd = []) : results.map Prod.fst = es := by
  have quiet := List.flatMap_eq_nil_iff.mp none
  have same : List.Forall₂ (fun e (result : Expr × List MergeStep) => result.1 = id e) es results := by
    apply pairs_imp below
    rintro e inE ⟨r, steps⟩ inR ran
    exact each e inE ran (quiet _ inR)
  rw [map_eq_of_pairs same, List.map_id]

theorem reduceTraced_unchanged (flat : e.Flat) (ran : engine.reduceTraced e = .done (r, steps))
    (none : steps = []) : r = e := by
  induction e generalizing r steps with
  | number | symbol =>
    cases reduceTraced_traced ran
    rfl
  | nary op es ih =>
    cases reduceTraced_traced ran with
    | terminal terminal => cases terminal
    | @nary _ _ rest results later below pass =>
      obtain ⟨⟨long, others⟩, flats⟩ := flat_nary.mp flat
      obtain ⟨quiet, rfl⟩ := List.append_eq_nil_iff.mp none
      have same : results.map Prod.fst = es :=
        traced_unchanged below (fun o member => ih o member (flats o member)) quiet
      rw [same] at pass
      obtain rfl := (sweep_passed (Nat.le_refl _) pass).of_length (sweep_length pass)
      exact Nary.join_of_kind_ne long others
  | power base exponent ofBase ofExponent =>
    obtain ⟨flatBase, flatExponent⟩ := flat_power.mp flat
    cases reduceTraced_traced ran with
    | terminal terminal => cases terminal
    | power first second =>
      obtain ⟨rfl, rfl⟩ := List.append_eq_nil_iff.mp none
      rw [ofBase flatBase first rfl, ofExponent flatExponent second rfl]
    | merged => simp at none

-- A tree that is its own reduction has refused every merge, in its operands and in its own pass.
theorem Normal.records_nothing (complete : Complete engine) (normal : Normal engine e)
    (ran : engine.reduceTraced e = .done (r, steps)) : steps = [] := by
  induction e generalizing r steps with
  | number | symbol =>
    cases reduceTraced_traced ran
    rfl
  | nary op es ih =>
    obtain ⟨each, refused⟩ := normal.nary_operands complete
    cases reduceTraced_traced ran with
    | terminal terminal => cases terminal
    | @nary _ _ rest results later below pass =>
      have quiet : results.flatMap Prod.snd = [] := by
        apply List.flatMap_eq_nil_iff.mpr
        intro result member
        obtain ⟨o, present, ran⟩ := pair_of_mem_right below member
        exact ih o present (each o present) ran
      have same : results.map Prod.fst = es :=
        traced_unchanged below (fun o member => reduceTraced_unchanged (each o member).flat) quiet
      rw [same] at pass
      have merged := sweep_length pass
      cases sweep_passed (Nat.le_refl _) pass with
      | refused =>
        obtain rfl : later = [] := List.length_eq_zero_iff.mp (by omega)
        rw [quiet, List.nil_append]
      | merged first => exact absurd refused first.not_refused
  | power base exponent ofBase ofExponent =>
    obtain ⟨⟨left, right⟩, refused⟩ := normal.power_operands complete
    cases reduceTraced_traced ran with
    | terminal terminal => cases terminal
    | power first second => rw [ofBase left first, ofExponent right second, List.append_nil]
    | merged first second accepted =>
      obtain rfl := ofBase left first
      obtain rfl := ofExponent right second
      obtain rfl := reduceTraced_unchanged left.flat first rfl
      obtain rfl := reduceTraced_unchanged right.flat second rfl
      cases refused.symm.trans accepted

-- Under the standard weights a flat tree has a trace, which has a step exactly if the tree is changed,
-- and at least one step less than the tree has leaves.
theorem trace_steps_iff_changed {config : Config} (standard : config.Standard) (exact : t.Exact)
    (flat : t.Flat) : ∃ r trace, Answers config (·.trace t) (r, trace) ∧
      (1 ≤ trace.steps.length ↔ r ≠ t) ∧ trace.steps.length + 1 ≤ t.leafCount := by
  have complete := unbounded_complete standard
  obtain ⟨⟨r, steps⟩, ran, _⟩ := (complete.capable _).reduceTraced exact (Nat.le_refl _)
  refine ⟨r, _, answers_trace.mpr ⟨steps, ran, rfl⟩, ?_, reduceTraced_length_lt flat ran⟩
  constructor
  · rintro some rfl
    have normal : Normal (unbounded config) r := ⟨exact, flat, reduceTraced_reduce ran⟩
    exact List.length_pos_iff.mp some (normal.records_nothing complete ran)
  · intro changed
    apply List.length_pos_iff.mpr
    intro none
    exact changed (reduceTraced_unchanged flat ran none)

-- The four leaves of x * x + x * x allow three merges, and as many make 2 * x ^ 2 of it. Nothing merges
-- in x + y, and nothing changes.
theorem trace_steps_iff_changed_of_squares :
    let x := Expr.symbol "x"
    let square := Expr.power x .two
    let t := Expr.sum [Expr.product [x, x], Expr.product [x, x]]
    let r := Expr.product [.two, square]
    let u := Expr.sum [x, Expr.symbol "y"]
    let trace : Trace := ⟨some t,
      [⟨.product, x, x, square⟩, ⟨.product, x, x, square⟩, ⟨.sum, square, square, r⟩], some r⟩
    (Answers {} (·.trace t) (r, trace) ∧ trace.steps.length + 1 ≤ t.leafCount ∧ r ≠ t) ∧
      ∃ trace, Answers {} (·.trace u) (u, trace) ∧ ¬ 1 ≤ trace.steps.length := by
  intro x square t r u trace
  have standard : ({} : Config).Standard := by decide
  constructor
  · have ran : (within {} 6).trace t = .done (r, trace) := by cbv
    obtain ⟨r', trace', answer, changed, bound⟩ :=
      trace_steps_iff_changed standard (t := t) (by decide) (by decide)
    cases answer.unique (.of_run (fun below => below.inStep.trace t) ran)
    exact ⟨answer, bound, changed.mp (by decide)⟩
  · have ran : (within {} 6).reduce u = .done u := by cbv
    obtain ⟨u', trace', answer, changed, _⟩ :=
      trace_steps_iff_changed standard (t := u) (by decide) (by decide)
    obtain ⟨steps, traced, _⟩ := answers_trace.mp answer
    have reduced := answers_reduce.mpr (reduceTraced_reduce traced)
    obtain rfl := reduced.unique (.of_run (fun below => below.reduce u) ran)
    exact ⟨trace', answer, fun some => changed.mp some rfl⟩

end Engine
end SymbolicArith
