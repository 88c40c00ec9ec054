import SymbolicArith.Expansion
import SymbolicArith.Proofs.Reduction.Closure

open SymbolicArith.Expr SymbolicArith.Outcome

-- What each step of an expansion can answer, as relations between a tree and its expanded form. A
-- deeper expansion has the answers of a shallower one, and a closed property of all leaves of a
-- tree holds of its expanded form.
namespace SymbolicArith

variable {config : Config} {inner inner' : Expr → Outcome Expr} {e r : Expr}
  {es terms others : List Expr} {depth : Nat}

theorem firstSum?_some (found : firstSum? es = some (terms, others)) :
    ∃ before after, es = before ++ sum terms :: after ∧ others = before ++ after := by
  fun_induction firstSum? es generalizing others with
  | case1 => cases found
  | case2 terms' rest =>
    cases found
    exact ⟨[], rest, rfl, rfl⟩
  | case3 e rest _ ih =>
    obtain ⟨⟨terms', others'⟩, later, answer⟩ := Option.map_eq_some_iff.mp found
    cases answer
    obtain ⟨before, after, rfl, rfl⟩ := ih later
    exact ⟨e :: before, after, rfl, rfl⟩

theorem firstSum?_eq_none : firstSum? es = none ↔ ∀ e ∈ es, e.kind ≠ .sum := by
  fun_induction firstSum? es with
  | case1 => simp
  | case2 terms rest => simp [kind, Nary.kind]
  | case3 e rest other ih =>
    have here : e.kind ≠ .sum := by
      intro own
      obtain ⟨terms, rfl⟩ := eq_nary_of_kind own
      exact other terms rfl
    simp [ih, here]

theorem distribute_none (none : firstSum? es = none) :
    distribute inner (product es) = .done (product es) := by
  simp [distribute, none]

theorem distribute_some (found : firstSum? es = some (terms, others)) :
    distribute inner (product es) =
      (terms.mapM fun term => inner (Nary.product.join (others ++ [term]))) >>= fun expanded =>
        .done (Nary.sum.join expanded) := by
  simp [distribute, found]

theorem distribute_other (other : e.kind ≠ .product) : distribute inner e = .done e := by
  unfold distribute
  split
  · exact absurd rfl other
  · rfl

-- A product goes over its first sum, term by term; anything else stays.
inductive Distributed (inner : Expr → Outcome Expr) : Expr → Expr → Prop
  | same {e : Expr} (noSum : e.kind = .product → ∀ f ∈ e.operands, f.kind ≠ .sum) :
      Distributed inner e e
  | spread {before terms after expanded : List Expr}
      (each : List.Forall₂
        (fun term r => inner (Nary.product.join (before ++ after ++ [term])) = .done r)
        terms expanded) :
      Distributed inner (product (before ++ sum terms :: after)) (Nary.sum.join expanded)

theorem distribute_distributed (run : distribute inner e = .done r) : Distributed inner e r := by
  unfold distribute at run
  split at run
  · split at run
    · rename_i found
      obtain ⟨before, after, rfl, rfl⟩ := firstSum?_some found
      obtain ⟨expanded, each, answer⟩ := bind_eq_done.mp run
      cases done.inj answer
      exact .spread (mapM_eq_done.mp each)
    · rename_i none
      cases done.inj run
      exact .same fun _ => firstSum?_eq_none.mp none
  · rename_i other
    cases done.inj run
    refine .same fun own => ?_
    obtain ⟨factors, rfl⟩ := eq_nary_of_kind own
    exact absurd rfl (other factors)

theorem multiplyOut_none {base exponent : Expr} (none : config.repetitions? exponent = none) :
    multiplyOut config inner (power base exponent) = .done (power base exponent) := by
  simp [multiplyOut, none]

theorem multiplyOut_some {base exponent : Expr} (some : config.repetitions? exponent = some count) :
    multiplyOut config inner (power base exponent) =
      distribute inner (Nary.product.join (List.replicate count base)) := by
  simp [multiplyOut, some]

theorem multiplyOut_other (other : e.kind ≠ .power) :
    multiplyOut config inner e = distribute inner e := by
  unfold multiplyOut
  split
  · exact absurd rfl other
  · rfl

-- A power is repeated as a product first, if its exponent says how often.
inductive MultipliedOut (config : Config) (inner : Expr → Outcome Expr) : Expr → Expr → Prop
  | kept {base exponent : Expr} (none : config.repetitions? exponent = none) :
      MultipliedOut config inner (power base exponent) (power base exponent)
  | unrolled {base exponent r : Expr} {count : Nat}
      (some : config.repetitions? exponent = some count)
      (distributed : Distributed inner (Nary.product.join (List.replicate count base)) r) :
      MultipliedOut config inner (power base exponent) r
  | distributed {e r : Expr} (other : e.kind ≠ .power) (distributed : Distributed inner e r) :
      MultipliedOut config inner e r

theorem multiplyOut_multipliedOut (run : multiplyOut config inner e = .done r) :
    MultipliedOut config inner e r := by
  unfold multiplyOut at run
  split at run
  · split at run
    · rename_i some
      exact .unrolled some (distribute_distributed run)
    · rename_i none
      cases done.inj run
      exact .kept none
  · rename_i other
    refine .distributed ?_ (distribute_distributed run)
    intro own
    obtain ⟨base, exponent, rfl⟩ := eq_power_of_kind own
    exact other base exponent rfl

inductive Expanded (config : Config) (inner : Expr → Outcome Expr) : Expr → Expr → Prop
  | terminal {e : Expr} (terminal : e.isTerminal) : Expanded config inner e e
  | nary {op : Nary} {operands expanded : List Expr} {r : Expr}
      (below : List.Forall₂ (fun e r => inner e = .done r) operands expanded)
      (joined : MultipliedOut config inner (op.join expanded) r) :
      Expanded config inner (nary op operands) r
  | power {base exponent b e r : Expr} (ofBase : inner base = .done b)
      (ofExponent : inner exponent = .done e)
      (joined : MultipliedOut config inner (power b e) r) :
      Expanded config inner (power base exponent) r

theorem expandStep_expanded (run : expandStep config inner e = .done r) :
    Expanded config inner e r := by
  cases e with
  | number | symbol =>
    cases done.inj run
    exact .terminal rfl
  | nary op operands =>
    obtain ⟨expanded, below, joined⟩ := bind_eq_done.mp run
    exact .nary (mapM_eq_done.mp below) (multiplyOut_multipliedOut joined)
  | power base exponent =>
    obtain ⟨b, ofBase, run⟩ := bind_eq_done.mp run
    obtain ⟨e, ofExponent, joined⟩ := bind_eq_done.mp run
    exact .power ofBase ofExponent (multiplyOut_multipliedOut joined)

section

variable (below : ∀ e, (inner e).ExtendedBy (inner' e))

include below

theorem distribute_extended (e : Expr) :
    (distribute inner e).ExtendedBy (distribute inner' e) := by
  unfold distribute
  split
  · split
    · exact (ExtendedBy.mapM (fun term => below _) _).bind fun _ => .refl _
    · exact .refl _
  · exact .refl _

theorem multiplyOut_extended (e : Expr) :
    (multiplyOut config inner e).ExtendedBy (multiplyOut config inner' e) := by
  unfold multiplyOut
  split
  · split
    · exact distribute_extended below _
    · exact .refl _
  · exact distribute_extended below _

theorem expandStep_extended (e : Expr) :
    (expandStep config inner e).ExtendedBy (expandStep config inner' e) := by
  cases e with
  | number | symbol => exact .refl _
  | nary op operands =>
    exact (ExtendedBy.mapM below operands).bind fun _ => multiplyOut_extended below _
  | power base exponent =>
    exact (below base).bind fun _ => (below exponent).bind fun _ => multiplyOut_extended below _

end

theorem expandWithin_extended_succ (config : Config) (depth : Nat) (e : Expr) :
    (e.expandWithin config depth).ExtendedBy (e.expandWithin config (depth + 1)) := by
  induction depth generalizing e with
  | zero => exact .unfinished _
  | succ depth ih => exact expandStep_extended ih e

theorem expandWithin_extended {depth deeper : Nat} (le : depth ≤ deeper) (e : Expr) :
    (e.expandWithin config depth).ExtendedBy (e.expandWithin config deeper) := by
  induction le with
  | refl => exact .refl _
  | @step deeper _ ih => exact ih.trans (expandWithin_extended_succ config deeper e)

namespace Closed

variable {holds : Expr → Prop} (closed : Closed holds)
  (below : ∀ {e r}, holds e → inner e = .done r → holds r)

include closed

include below in
theorem distributed (all : holds e) (distributed : Distributed inner e r) : holds r := by
  cases distributed with
  | same => exact all
  | @spread before terms after expanded each =>
    have inside : ∀ e ∈ before ++ sum terms :: after, holds e := fun e member =>
      closed.operand all member
    have ofTerms : ∀ term ∈ terms, holds term := fun term member =>
      closed.operand (inside (sum terms) (by simp)) member
    apply closed.join
    intro r member
    obtain ⟨term, present, ran⟩ := pair_of_mem_right each member
    refine below (closed.join ?_) ran
    intro f factor
    simp only [List.mem_append, List.mem_cons, List.not_mem_nil, or_false] at factor inside
    rcases factor with (early | late) | rfl
    · exact inside f (.inl early)
    · exact inside f (.inr (.inr late))
    · exact ofTerms f present

include below in
theorem multipliedOut (all : holds e) (joined : MultipliedOut config inner e r) : holds r := by
  cases joined with
  | kept => exact all
  | @unrolled base exponent _ count _ distributed =>
    refine closed.distributed below (closed.join ?_) distributed
    intro e member
    rw [List.eq_of_mem_replicate member]
    exact closed.operand all (by simp [operands])
  | distributed _ distributed => exact closed.distributed below all distributed

-- What a closed property says of all leaves of a tree it says of the expanded tree.
theorem expand (leaves : e.Leaves holds) (run : e.expandWithin config depth = .done r) :
    holds r := by
  induction depth generalizing e r with
  | zero => cases run
  | succ depth ih =>
    have below : ∀ {e r}, holds e → e.expandWithin config depth = .done r → holds r :=
      fun all ran => ih (closed.leaves all) ran
    cases expandStep_expanded run with
    | terminal terminal => exact leaves.here terminal
    | nary each joined =>
      refine closed.multipliedOut below (closed.join ?_) joined
      intro r member
      obtain ⟨o, present, ran⟩ := pair_of_mem_right each member
      exact ih (leaves.operand present) ran
    | power ofBase ofExponent joined =>
      have base := ih (leaves.operand (by simp [operands])) ofBase
      have exponent := ih (leaves.operand (by simp [operands])) ofExponent
      exact closed.multipliedOut below (closed.power base exponent) joined

end Closed

theorem expandWithin_exact (exact : e.Exact) (run : e.expandWithin config depth = .done r) :
    r.Exact :=
  closed_exact.expand (closed_exact.leaves exact) run

end SymbolicArith
