import Mathlib.Tactic.Ring
import SymbolicArith.Proofs.Expansion.NormalForm
import SymbolicArith.Proofs.Expr.Value

open SymbolicArith.Expr SymbolicArith.Outcome

-- Expansion keeps values everywhere: distributing holds of all rationals, and a power that is
-- unrolled has a natural number for its exponent. So powers may be read in any way that repeats the
-- multiplication for natural exponents, and zero bases need no care.
namespace SymbolicArith

variable {config : Config} {inner : Expr → Outcome Expr} {pow : ℚ → ℚ → ℚ} {rho : String → ℚ}
  {e r : Expr} {depth : Nat}

-- A power read as so many factors, for natural exponents; for others as anything.
def RepeatsFactors (pow : ℚ → ℚ → ℚ) : Prop := ∀ (b : ℚ) (n : ℕ), pow b n = b ^ n

section

variable (below : ∀ {e r}, e.Exact → inner e = .done r → r.valueWith pow rho = e.valueWith pow rho)

include below

-- Multiplied by the other factors, the terms of a sum add up to the product with the sum.
theorem terms_value {others terms expanded : List Expr} (exactOthers : ∀ f ∈ others, f.Exact)
    (exactTerms : ∀ term ∈ terms, term.Exact)
    (each : List.Forall₂ (fun term r => inner (Nary.product.join (others ++ [term])) = .done r)
      terms expanded) :
    (expanded.map (valueWith pow rho)).sum =
      (others.map (valueWith pow rho)).prod * (terms.map (valueWith pow rho)).sum := by
  induction each with
  | nil => simp
  | @cons term r terms expanded ran _ ih =>
    have exact : (Nary.product.join (others ++ [term])).Exact := by
      apply Nary.join_exact
      intro f member
      rcases List.mem_append.mp member with early | late
      · exact exactOthers f early
      · exact List.mem_singleton.mp late ▸ exactTerms term (by simp)
    have first := below exact ran
    have rest := ih fun other member => exactTerms other (by simp [member])
    rw [Nary.valueWith_join, Nary.total, List.map_append, List.prod_append] at first
    simp only [List.map_cons, List.map_nil, List.prod_cons, List.prod_nil, mul_one] at first
    rw [List.map_cons, List.sum_cons, List.map_cons, List.sum_cons, first, rest]
    ring

theorem distributed_value (exact : e.Exact) (distributed : Distributed inner e r) :
    r.valueWith pow rho = e.valueWith pow rho := by
  cases distributed with
  | same => rfl
  | @spread before terms after expanded each =>
    have factors := exact_nary.mp exact
    have others : ∀ f ∈ before ++ after, f.Exact := by
      intro f member
      exact factors f (by simp only [List.mem_append, List.mem_cons] at member ⊢; tauto)
    have ofTerms : ∀ term ∈ terms, term.Exact := exact_nary.mp (factors (sum terms) (by simp))
    have total := terms_value below others ofTerms each
    simp only [Nary.valueWith_join, valueWith_nary, Nary.total, total, List.map_append,
      List.map_cons, List.prod_append, List.prod_cons]
    ring

theorem multipliedOut_value (natural : RepeatsFactors pow) (exact : e.Exact)
    (joined : MultipliedOut config inner e r) : r.valueWith pow rho = e.valueWith pow rho := by
  cases joined with
  | kept => rfl
  | @unrolled base exponent _ count some distributed =>
    obtain ⟨exactBase, exactExponent⟩ := exact_power.mp exact
    obtain ⟨value, rfl, is⟩ := natural_of_repetitions? exactExponent some
    have copies : (Nary.product.join (List.replicate count base)).Exact := by
      apply Nary.join_exact
      intro f member
      rwa [List.eq_of_mem_replicate member]
    rw [distributed_value below copies distributed, valueWith_power, valueWith_number is, natural]
    simp [Nary.total]
  | distributed _ distributed => exact distributed_value below exact distributed

end

theorem expandWithin_value (natural : RepeatsFactors pow) (exact : e.Exact)
    (run : e.expandWithin config depth = .done r) :
    r.valueWith pow rho = e.valueWith pow rho := by
  induction depth generalizing e r with
  | zero => cases run
  | succ depth ih =>
    cases expandStep_expanded run with
    | terminal => rfl
    | @nary op operands expanded _ each joined =>
      have exact' : ∀ r ∈ expanded, r.Exact := by
        intro r member
        obtain ⟨o, present, ran⟩ := pair_of_mem_right each member
        exact expandWithin_exact (exact_nary.mp exact o present) ran
      have same : expanded.map (valueWith pow rho) = operands.map (valueWith pow rho) := by
        apply map_eq_of_pairs
        exact pairs_imp each fun o member r _ ran => ih (exact_nary.mp exact o member) ran
      rw [multipliedOut_value ih natural (Nary.join_exact exact') joined, Nary.valueWith_join, same,
        valueWith_nary]
    | @power base exponent b e _ ofBase ofExponent joined =>
      obtain ⟨exactBase, exactExponent⟩ := exact_power.mp exact
      have exact' := exact_power.mpr
        ⟨expandWithin_exact exactBase ofBase, expandWithin_exact exactExponent ofExponent⟩
      rw [multipliedOut_value ih natural exact' joined, valueWith_power, valueWith_power,
        ih exactBase ofBase, ih exactExponent ofExponent]

-- Every exact tree has an expanded form of its value, for every assignment and however powers with
-- other than natural exponents are read.
theorem expand_preserves_value (config : Config) {t : Expr} (exact : t.Exact)
    (natural : RepeatsFactors pow) (rho : String → ℚ) :
    ∃ r, Expands config t r ∧ r.Exact ∧ r.valueWith pow rho = t.valueWith pow rho := by
  obtain ⟨r, bound, ran⟩ := expands config t
  have run := ran bound (Nat.le_refl _)
  exact ⟨r, ⟨bound, ran⟩, expandWithin_exact exact run, expandWithin_value natural exact run⟩

-- Where x is 0 the square of x + x^-1 has a power of 0 for a term, and so has its expanded form.
theorem expand_preserves_value_of_zero_base :
    (power (sum [symbol "x", power (symbol "x") minusOne]) two).Exact ∧
      RepeatsFactors integerPower ∧
      ∃ r, Expands {} (power (sum [symbol "x", power (symbol "x") minusOne]) two) r ∧ r.Exact ∧
        r.valueWith integerPower (fun _ => 0) = 0 := by
  have exact : (power (sum [symbol "x", power (symbol "x") minusOne]) two).Exact := by decide
  have natural : RepeatsFactors integerPower := by
    intro b n
    simp [integerPower]
  obtain ⟨r, expands, exact', same⟩ := expand_preserves_value {} exact natural fun _ => 0
  refine ⟨exact, natural, r, expands, exact', same.trans ?_⟩
  simp [two, minusOne, Nary.total, integerPower, valueWith, valuesWith]

end SymbolicArith
