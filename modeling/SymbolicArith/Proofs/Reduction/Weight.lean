import SymbolicArith.Proofs.Reduction.Closure
import SymbolicArith.Proofs.Reduction.Replay
import SymbolicArith.Proofs.WellFormed

open SymbolicArith.Expr

-- Weights under any configuration. A merge is accepted if it weighs less than the plain node of its
-- two operands, and that node weighs one node more than they do, which no longer list of operands
-- saves. So every recorded merge may add up to one less than the weight of a node.
namespace SymbolicArith

namespace Expr

variable {config : Config} {op : Nary} {e x y : Expr} {es xs ys : List Expr}

theorem weights_append : weights config (xs ++ ys) = weights config xs + weights config ys := by
  induction xs with
  | nil => simp [weights]
  | cons e es ih =>
    simp only [List.cons_append, weights, ih]
    omega

theorem weights_spliced_le (nodes : 0 ≤ config.nodeWeight) :
    weights config (e.spliced op) ≤ e.weight config := by
  by_cases own : e.kind = op.kind
  · obtain ⟨es, rfl⟩ := eq_nary_of_kind own
    rw [spliced_self, weight]
    omega
  · simp [spliced_of_kind_ne own, weights]

theorem weights_flatMap_spliced_le (nodes : 0 ≤ config.nodeWeight) :
    weights config (es.flatMap (·.spliced op)) ≤ weights config es := by
  induction es with
  | nil => simp [weights]
  | cons e es ih =>
    have first : weights config (e.spliced op) ≤ _ := weights_spliced_le nodes
    simp only [List.flatMap_cons, weights_append, weights]
    omega

theorem weight_join_le (nodes : 0 ≤ config.nodeWeight) (some : es ≠ [])
    (flat : ∀ e ∈ es, e.Flat) :
    (op.join es).weight config ≤ config.nodeWeight + weights config es := by
  have spliced : weights config (es.flatMap (·.spliced op)) ≤ _ := weights_flatMap_spliced_le nodes
  have present : es.flatMap (·.spliced op) ≠ [] := flatMap_spliced_ne_nil some flat
  unfold Nary.join
  generalize es.flatMap (·.spliced op) = parts at spliced present
  match parts with
  | [] => exact absurd rfl present
  | [e] =>
    simp only [weights] at spliced
    simp only [Nary.collect]
    omega
  | _ :: _ :: _ =>
    rw [Nary.collect, weight]
    · omega
    · simp
    · simp

theorem weight_plain_le (nodes : 0 ≤ config.nodeWeight) (op : Operator) (left : x.Flat)
    (right : y.Flat) :
    (op.plain x y).weight config ≤ config.nodeWeight + (x.weight config + y.weight config) := by
  cases op with
  | nary op =>
    have joined : (op.join [x, y]).weight config ≤ _ :=
      weight_join_le nodes (by simp) (by simp [left, right])
    simpa [Operator.plain, weights] using joined
  | power => simp [Operator.plain, weight]

end Expr

namespace Engine

open SymbolicArith.Outcome Relation

variable {engine : Engine Outcome} {config : Config} {op : Operator} {x y e r : Expr}
  {xs ys es : List Expr} {steps : List MergeStep}

-- The weight of the operands of a pass, and what its merges may still add to it.
def potential (config : Config) (es : List Expr) : Int :=
  weights config es + (config.nodeWeight - 1) * es.length

theorem potential_cons (config : Config) (e : Expr) (es : List Expr) :
    potential config (e :: es) = e.weight config + (config.nodeWeight - 1) + potential config es := by
  simp only [potential, weights, List.length_cons, Nat.cast_add, Nat.cast_one, Int.mul_add]
  omega

theorem potential_append (config : Config) (xs ys : List Expr) :
    potential config (xs ++ ys) = potential config xs + potential config ys := by
  simp only [potential, weights_append, List.length_append, Nat.cast_add, Int.mul_add]
  omega

section

variable (nodes : 0 ≤ engine.config.nodeWeight)
  (flatReduce : ∀ {e r}, engine.reduce e = .done r → r.Flat)

include nodes

theorem merge_weight_lt (left : x.Flat) (right : y.Flat)
    (accepted : engine.merge op x y = .done (some r)) :
    r.weight engine.config <
      engine.config.nodeWeight + (x.weight engine.config + y.weight engine.config) := by
  have lighter := of_decide_eq_true (merge_some accepted).2
  exact Int.lt_of_lt_of_le lighter (weight_plain_le nodes op left right)

theorem Merges.potential_le (merges : Merges engine op xs ys) (flat : ∀ e ∈ xs, e.Flat) :
    potential engine.config ys ≤ potential engine.config xs := by
  cases merges with
  | @merge x y merged before between after accepted =>
    have lighter := merge_weight_lt nodes (flat x (by simp)) (flat y (by simp)) accepted
    simp only [potential_append, potential_cons]
    omega

include flatReduce

theorem pass_potential_le (pass : ReflTransGen (Merges engine op) xs ys)
    (flat : ∀ e ∈ xs, e.Flat) : potential engine.config ys ≤ potential engine.config xs := by
  induction pass with
  | refl => exact Int.le_refl _
  | tail pass step ih =>
    have flat' := closed_flat.pass (fun _ ran => flatReduce ran) pass flat
    exact Int.le_trans (step.potential_le nodes flat') ih

end

-- What the recorded merges may add to the weight of a tree.
def allowance (config : Config) (steps : List MergeStep) : Int :=
  (config.nodeWeight - 1) * steps.length

theorem allowance_append (config : Config) (steps later : List MergeStep) :
    allowance config (steps ++ later) = allowance config steps + allowance config later := by
  simp only [allowance, List.length_append, Nat.cast_add, Int.mul_add]

theorem sweep_weight_le {op : Nary} (nodes : 0 ≤ engine.config.nodeWeight)
    (flatReduce : ∀ {e r}, engine.reduce e = .done r → r.Flat) (some : es ≠ [])
    (flat : ∀ e ∈ es, e.Flat) (run : engine.sweep (.nary op) es.length es = .done (xs, steps)) :
    (op.join xs).weight engine.config ≤
      engine.config.nodeWeight + weights engine.config es + allowance engine.config steps := by
  have pass := (sweep_passed (Nat.le_refl _) run).merges
  have flatRest := closed_flat.pass (fun _ ran => flatReduce ran) pass flat
  have joined : (op.join xs).weight engine.config ≤ _ :=
    weight_join_le nodes (pass_ne_nil pass some) flatRest
  have lower := pass_potential_le nodes flatReduce pass flat
  have length : xs.length + steps.length = es.length := sweep_length run
  simp only [potential, ← length, Nat.cast_add, Int.mul_add] at lower
  unfold allowance
  omega

theorem unbounded_flat (ran : (unbounded config).reduce e = .done r) : r.Flat := by
  obtain ⟨depth, ran⟩ := limit_eq_done ran
  exact reduce_flat ran

theorem traced_weights_le {results : List (Expr × List MergeStep)}
    (below : List.Forall₂ (fun e result => engine.reduceTraced e = .done result) xs results)
    (each : ∀ e ∈ xs, ∀ {r steps}, engine.reduceTraced e = .done (r, steps) →
      r.weight config ≤ e.weight config + allowance config steps) :
    weights config (results.map Prod.fst) ≤
      weights config xs + allowance config (results.flatMap Prod.snd) := by
  induction below with
  | nil => simp [allowance, weights]
  | cons ran _ ih =>
    have first := each _ (by simp) ran
    have rest := ih fun o member => each o (by simp [member])
    simp only [List.map_cons, List.flatMap_cons, weights, allowance_append]
    omega

theorem reduceTraced_weight_le (nodes : 0 ≤ config.nodeWeight) (flat : e.Flat)
    (ran : (unbounded config).reduceTraced e = .done (r, steps)) :
    r.weight config ≤ e.weight config + allowance config steps := by
  induction e generalizing r steps with
  | number | symbol =>
    cases reduceTraced_traced ran
    simp [allowance]
  | nary op operands ih =>
    cases reduceTraced_traced ran with
    | terminal terminal => cases terminal
    | @nary _ _ rest results later below pass =>
      obtain ⟨⟨long, _⟩, flats⟩ := flat_nary.mp flat
      have ofOperands : weights config (results.map Prod.fst) ≤ _ :=
        traced_weights_le below fun o member _ _ ran => ih o member (flats o member) ran
      have flatReduced : ∀ r ∈ results.map Prod.fst, r.Flat := by
        intro r member
        obtain ⟨result, present, rfl⟩ := List.mem_map.mp member
        obtain ⟨o, _, ran⟩ := pair_of_mem_right below present
        exact unbounded_flat (reduceTraced_reduce ran)
      have some : results.map Prod.fst ≠ [] := by
        have length := below.length_eq
        apply List.length_pos_iff.mp
        rw [List.length_map]
        omega
      have ofPass := sweep_weight_le nodes unbounded_flat some flatReduced pass
      rw [Expr.weight, allowance_append]
      simp only [unbounded] at ofPass
      omega
  | power base exponent ofBase ofExponent =>
    obtain ⟨flatBase, flatExponent⟩ := flat_power.mp flat
    cases reduceTraced_traced ran with
    | terminal terminal => cases terminal
    | power first second =>
      have left := ofBase flatBase first
      have right := ofExponent flatExponent second
      rw [Expr.weight, Expr.weight, allowance_append]
      omega
    | merged first second accepted =>
      have left := ofBase flatBase first
      have right := ofExponent flatExponent second
      have lighter := merge_weight_lt nodes (unbounded_flat (reduceTraced_reduce first))
        (unbounded_flat (reduceTraced_reduce second)) accepted
      simp only [unbounded] at lighter
      rw [Expr.weight, allowance_append, allowance_append]
      simp only [allowance, List.length_singleton, Nat.cast_one, Int.mul_one] at left right ⊢
      omega

-- A reduction weighs at most one less than a node more for each of its recorded merges, and so no
-- more than the tree where a node weighs at most 1.
theorem reduce_weight_le {t r : Expr} (nodes : 0 ≤ config.nodeWeight) (wellFormed : t.WellFormed)
    (reduced : Answers config (·.reduce t) r) :
    (∃ trace, Answers config (·.trace t) (r, trace) ∧ r.weight config ≤
      t.weight config + (config.nodeWeight - 1) * trace.steps.length) ∧
    (config.nodeWeight ≤ 1 → r.weight config ≤ t.weight config) := by
  have flat := (wellFormed_iff.mp wellFormed).1
  rw [answers_reduce, ← reduceTraced_fst (unbounded_reduce config), map_eq_done] at reduced
  obtain ⟨⟨r', steps⟩, ran, same⟩ := reduced
  obtain rfl : r' = r := same
  have bound := reduceTraced_weight_le nodes flat ran
  refine ⟨⟨_, answers_trace.mpr ⟨steps, ran, rfl⟩, bound⟩, fun light => ?_⟩
  have none : allowance config steps ≤ 0 :=
    Int.mul_nonpos_of_nonpos_of_nonneg (by omega) (by omega)
  omega

-- In x + x + z the merge of x + x into 2 * x spares a symbol and costs a node, and the node of a sum
-- of two stays where it was.
theorem reduce_weight_le_of_heavy_nodes :
    let config : Config := { symbolWeight := 2, numberWeight := 1, nodeWeight := 2 }
    let t := Expr.sum [symbol "x", symbol "x", symbol "z"]
    let r := Expr.sum [Expr.product [.two, symbol "x"], symbol "z"]
    Answers config (·.reduce t) r ∧ ∃ trace, Answers config (·.trace t) (r, trace) ∧
      r.weight config ≤ t.weight config + (config.nodeWeight - 1) * trace.steps.length := by
  intro config t r
  have ran : (within config 8).reduce t = .done r := by cbv
  have reduced : Answers config (·.reduce t) r := .of_run (fun below => below.reduce t) ran
  exact ⟨reduced, (reduce_weight_le (by decide) (by decide) reduced).1⟩

-- Where a node weighs more than 1, a reduction can be heavier than its tree.
theorem reduce_heavier_of_heavy_nodes :
    ¬ ∀ (config : Config) (t r : Expr), 1 ≤ config.symbolWeight → 1 ≤ config.numberWeight →
      1 ≤ config.nodeWeight → t.WellFormed → t.Exact → Answers config (·.reduce t) r →
      r.weight config ≤ t.weight config := by
  intro never
  let config : Config := { symbolWeight := 2, numberWeight := 1, nodeWeight := 2 }
  let t := Expr.sum [symbol "x", symbol "x", symbol "z"]
  let r := Expr.sum [Expr.product [.two, symbol "x"], symbol "z"]
  have ran : (within config 8).reduce t = .done r := by cbv
  have reduced : Answers config (·.reduce t) r := .of_run (fun below => below.reduce t) ran
  have light : r.weight config ≤ t.weight config :=
    never config t r (by decide) (by decide) (by decide) (by decide) (by decide) reduced
  exact absurd light (by decide)

end Engine

end SymbolicArith
