import SymbolicArith.Proofs.Expansion.NormalForm
import SymbolicArith.Proofs.Reduction.Recasting

open SymbolicArith.Expr SymbolicArith.Outcome

-- Trees that are cast anew are expanded like the trees themselves. So every operation on trees
-- answers on renamed trees what it answers on the trees, renamed.
namespace SymbolicArith

variable {c : Recasting} {config : Config} {inner : Expr → Outcome Expr}

theorem firstSum?_recast (es : List Expr) : firstSum? (es.map (recast c)) =
    (firstSum? es).map (Prod.map (List.map (recast c)) (List.map (recast c))) := by
  fun_induction firstSum? es with
  | case1 => rfl
  | case2 terms rest =>
    rw [List.map_cons, recast_nary]
    rfl
  | case3 e rest other ih =>
    have here : ∀ terms, e.recast c ≠ sum terms := by
      intro terms same
      have own : e.kind = .sum := by rw [← kind_recast (c := c), same]; rfl
      obtain ⟨terms', rfl⟩ := eq_nary_of_kind own
      exact other terms' rfl
    rw [List.map_cons, firstSum?, ih]
    · cases firstSum? rest <;> rfl
    · exact here

theorem repetitions?_recast (e : Expr) :
    config.repetitions? (e.recast c) = config.repetitions? e := by
  cases e <;> simp [Config.repetitions?, c.integer?]

section

variable (below : ∀ e, inner (e.recast c) = recast c <$> inner e)

include below

theorem distribute_recast (e : Expr) :
    distribute inner (e.recast c) = recast c <$> distribute inner e := by
  by_cases own : e.kind = .product
  · obtain ⟨factors, rfl⟩ := eq_nary_of_kind own
    have found := firstSum?_recast (c := c) factors
    cases first : firstSum? factors with
    | none =>
      rw [first] at found
      rw [distribute_none first, map_done, recast_nary, distribute_none found]
    | some split =>
      obtain ⟨terms, others⟩ := split
      rw [first] at found
      rw [distribute_some first, recast_nary, distribute_some found]
      have each : ∀ term ∈ terms,
          inner (Nary.product.join (others.map (recast c) ++ [term.recast c])) =
            recast c <$> inner (Nary.product.join (others ++ [term])) := by
        intro term _
        rw [← below]
        simp
      exact bind_carried (mapM_carried each) fun expanded => by simp [map_done]
  · rw [distribute_other own, distribute_other (by simpa using own), map_done]

theorem multiplyOut_recast (e : Expr) :
    multiplyOut config inner (e.recast c) = recast c <$> multiplyOut config inner e := by
  by_cases own : e.kind = .power
  · obtain ⟨base, exponent, rfl⟩ := eq_power_of_kind own
    have same : config.repetitions? (exponent.recast c) = config.repetitions? exponent :=
      repetitions?_recast exponent
    rw [recast_power]
    cases repeated : config.repetitions? exponent with
    | none =>
      rw [repeated] at same
      rw [multiplyOut_none repeated, multiplyOut_none same, map_done, recast_power]
    | some count =>
      rw [repeated] at same
      rw [multiplyOut_some repeated, multiplyOut_some same, ← distribute_recast below]
      simp
  · rw [multiplyOut_other own, multiplyOut_other (by simpa using own), distribute_recast below]

theorem expandStep_recast (e : Expr) :
    expandStep config inner (e.recast c) = recast c <$> expandStep config inner e := by
  cases e with
  | number | symbol => simp [expandStep, map_done]
  | nary op operands =>
    rw [recast_nary]
    refine bind_carried (mapM_carried fun e _ => below e) fun expanded => ?_
    rw [← Nary.recast_join]
    exact multiplyOut_recast below _
  | power base exponent =>
    rw [recast_power]
    refine bind_carried (below base) fun base => ?_
    refine bind_carried (below exponent) fun exponent => ?_
    rw [← recast_power]
    exact multiplyOut_recast below _

end

theorem expandWithin_recast (depth : Nat) (e : Expr) :
    (e.recast c).expandWithin config depth = recast c <$> e.expandWithin config depth := by
  induction depth generalizing e with
  | zero => rfl
  | succ depth ih => exact expandStep_recast ih e

theorem Expands.recast {e r : Expr} (expands : Expands config e r) (c : Recasting) :
    Expands config (e.recast c) (r.recast c) := by
  obtain ⟨bound, ran⟩ := expands
  refine ⟨bound, fun depth le => ?_⟩
  rw [expandWithin_recast, ran depth le, map_done]

namespace Engine

-- Each operation answers on renamed trees exactly if it answers on the trees themselves, and then with
-- the renamed answer.
structure RespectsRenaming (config : Config) (s : String → String) : Prop where
  reduce : ∀ {t r' : Expr}, Answers config (·.reduce (t.rename s)) r' ↔
    ∃ r, Answers config (·.reduce t) r ∧ r.rename s = r'
  expand : ∀ {t r' : Expr}, Expands config (t.rename s) r' ↔
    ∃ r, Expands config t r ∧ r.rename s = r'
  combine : ∀ {op} {x y r' : Expr}, Answers config (·.combine op (x.rename s) (y.rename s)) r' ↔
    ∃ r, Answers config (·.combine op x y) r ∧ r.rename s = r'
  isEqual : ∀ {t u : Expr} {equal}, Answers config (·.isEqual (t.rename s) (u.rename s)) equal ↔
    Answers config (·.isEqual t u) equal

theorem operations_respect_renaming {s : String → String} (config : Config) (injective : s.Injective) :
    RespectsRenaming config s := by
  have recasts := unbounded_recasts (c := .renamed s) injective config
  refine ⟨?_, ?_, ?_, ?_⟩
  · intro t r'
    simp only [answers_reduce, recasts.reduce, map_eq_done]
  · intro t r'
    constructor
    · intro expands'
      obtain ⟨r, ofTree⟩ := expands config t
      exact ⟨r, ofTree, (ofTree.recast (.renamed s)).unique expands'⟩
    · rintro ⟨r, ofTree, rfl⟩
      exact ofTree.recast (.renamed s)
  · intro op x y r'
    simp only [answers_combine, recasts.combine, map_eq_done]
  · intro t u equal
    simp only [answers_isEqual, recasts.isEqual]

-- Of 2 * (x + x) and 2 * x, with another name for x.
theorem operations_respect_renaming_of_suffix :
    let longer := fun name : String => name ++ "_1"
    let t := product [two, sum [symbol "x", symbol "x"]]
    let u := product [two, symbol "x"]
    longer.Injective ∧
      Answers {} (·.reduce (t.rename longer)) (product [two, two, symbol "x_1"]) ∧
      Expands {} (t.rename longer) (sum [u.rename longer, u.rename longer]) ∧
      Answers {} (·.combine .sum (u.rename longer) (u.rename longer))
        (product [ofInt 4, symbol "x_1"]) ∧
      Answers {} (·.isEqual (t.rename longer) (u.rename longer)) false := by
  intro longer t u
  have injective : longer.Injective := by
    intro a b same
    have chars := congrArg String.toList same
    simp only [longer, String.toList_append] at chars
    exact String.toList_injective (List.append_cancel_right chars)
  have respects := operations_respect_renaming {} injective
  have reduced : (within {} 8).reduce t = .done (product [two, two, symbol "x"]) := by cbv
  have expanded : t.expandWithin {} 6 = .done (sum [u, u]) := by cbv
  have combined : (within {} 6).combine .sum u u = .done (product [ofInt 4, symbol "x"]) := by cbv
  have compared : (within {} 8).isEqual t u = .done false := by cbv
  refine ⟨injective, respects.reduce.mpr ⟨_, .of_run (fun below => below.reduce t) reduced, ?_⟩,
    respects.expand.mpr ⟨sum [u, u], .of_run expanded, ?_⟩,
    respects.combine.mpr ⟨_, .of_run (fun below => below.inStep.combine .sum u u) combined, ?_⟩,
    respects.isEqual.mpr (.of_run (fun below => below.isEqual t u) compared)⟩
  · simp [longer]
  · simp
  · simp [longer]

end Engine

end SymbolicArith
