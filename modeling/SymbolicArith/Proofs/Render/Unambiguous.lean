import Mathlib.Tactic.NormNum.Eq
import SymbolicArith.Proofs.Render.Reading

open SymbolicArith.Expr SymbolicArith.Outcome SymbolicArith.Token

-- Texts and values. The text of a legible tree tells its value: legible trees of one text have one
-- value wherever the powers of negative numbers in them have odd exponents. Without either proviso
-- two trees can have one text and different values, since a minus sign before a power is both that
-- of a negative base and a coefficient of -1, and since digits that meet are read as one number.
namespace SymbolicArith

namespace Expr

-- Every power has a whole exponent and a base other than zero.
def EvaluableNode (rho : String → ℚ) : Expr → Prop
  | .power base exponent => (∃ n : ℤ, exponent.value rho = n) ∧ base.value rho ≠ 0
  | _ => True

abbrev Evaluable (rho : String → ℚ) : Expr → Prop := Everywhere (EvaluableNode rho)

variable {e t u : Expr} {rho : String → ℚ}

theorem evaluable_ofInt (n : ℤ) : (ofInt n).Evaluable rho := everywhere_number.mpr trivial

theorem evaluable_power (m n : ℤ) (some : m ≠ 0) :
    (power (ofInt m) (ofInt n)).Evaluable rho := by
  refine everywhere_power.mpr ⟨⟨⟨n, value_ofInt n⟩, ?_⟩, evaluable_ofInt m, evaluable_ofInt n⟩
  rw [value_ofInt]
  exact_mod_cast some

theorem evaluable_product (m n k : ℤ) (some : n ≠ 0) :
    (product [ofInt m, power (ofInt n) (ofInt k)]).Evaluable rho := by
  refine everywhere_nary.mpr ⟨trivial, ?_⟩
  simp [evaluable_ofInt, evaluable_power n k some]

theorem signed_ofInt (n : ℤ) : (ofInt n).Everywhere (SignedNode rho) :=
  everywhere_number.mpr trivial

theorem signed_power {m n : ℤ} (odd : m < 0 → Odd n) :
    (power (ofInt m) (ofInt n)).Everywhere (SignedNode rho) := by
  refine everywhere_power.mpr ⟨fun negative => ⟨n, odd ?_, value_ofInt n⟩, signed_ofInt m,
    signed_ofInt n⟩
  simpa [ofInt, isNegativeNumber, Literal.isNegative] using negative

theorem eq_of_yields {ts : List Token} {v w : ℚ} (one : Yields rho ts v)
    (other : Yields rho ts w) : v = w := by
  obtain ⟨frame, read, rfl⟩ := one []
  obtain ⟨frame', read', rfl⟩ := other []
  rw [read] at read'
  cases read'
  rfl

end Expr

namespace Engine

variable {t u : Expr} {s : String} {rho : String → ℚ}

-- Both have a text unless a number in them has too many digits for one.
theorem text_unambiguous (left : t.Legible) (right : u.Legible) :
    (∀ digits, t.fits digits → ∃ s, Answers {} (Infix.text digits · t) s) ∧
      (∀ digits, u.fits digits → ∃ s, Answers {} (Infix.text digits · u) s) ∧
      ∀ digits s, Answers {} (Infix.text digits · t) s → Answers {} (Infix.text digits · u) s →
        ∀ rho, t.Everywhere (SignedNode rho) → u.Everywhere (SignedNode rho) →
          t.value rho = u.value rho := by
  refine ⟨fun digits => answers_text_of_led left.exact left.flat.led,
    fun digits => answers_text_of_led right.exact right.flat.led, ?_⟩
  intro digits s written written' rho signed signed'
  -- equal texts have equal tokens, and these are read as one value
  have spelt := Infix.text_spelled left.exact (answers_text.mp written)
  have spelt' := Infix.text_spelled right.exact (answers_text.mp written')
  have same := (Infix.clear_tokens left).eq_of_spelled_eq (Infix.clear_tokens right)
    (spelt.symm.trans spelt')
  have yields : Yields rho (Infix.tokens (unbounded {}) t) (t.value rho) :=
    (left.reads signed).yields
  rw [same] at yields
  exact eq_of_yields yields (right.reads signed').yields

-- Of the power of -2, and of the negated power of 2, times a symbol.
theorem text_unambiguous_of_odd_power :
    Answers {} (Infix.text none · (product [power (ofInt (-2)) (ofInt 3), symbol "x"])) "-2^3x" ∧
      Answers {} (Infix.text none · (product [minusOne, power two (ofInt 3), symbol "x"])) "-2^3x" ∧
      ∀ rho, (product [power (ofInt (-2)) (ofInt 3), symbol "x"]).value rho =
        (product [minusOne, power two (ofInt 3), symbol "x"]).value rho := by
  have joined : Infix.junction (within {} 0) minusOne (power two (ofInt 3)) = .done .minus := rfl
  have joins : Answers {} (Infix.junction · minusOne (power two (ofInt 3))) .minus :=
    .of_run (fun below => below.inStep.junction _ _) joined
  have left : (product [power (ofInt (-2)) (ofInt 3), symbol "x"]).Legible := by
    refine ⟨by decide, by decide, by simp [LetteredNode, IsLetter, ofInt], ?_⟩
    simp [ofInt, SpacedNode, Spaced, startsWithDigit]
  have right : (product [minusOne, power two (ofInt 3), symbol "x"]).Legible := by
    refine ⟨by decide, by decide, ?_, everywhere_nary.mpr ⟨⟨?_, ?_⟩, ?_⟩⟩
    · simp [LetteredNode, IsLetter, minusOne, two, ofInt]
    · intro _ _ adjacent
      cases joins.unique adjacent
    · exact ⟨fun _ starts => absurd starts Bool.false_ne_true, trivial⟩
    · simp [minusOne, two, ofInt, SpacedNode]
  have run : Infix.text none (within {} 6) (product [power (ofInt (-2)) (ofInt 3), symbol "x"]) =
      .done "-2^3x" := rfl
  have run' : Infix.text none (within {} 6) (product [minusOne, power two (ofInt 3), symbol "x"]) =
      .done "-2^3x" := rfl
  have written : Answers {} (Infix.text none · _) "-2^3x" :=
    .of_run (fun below => below.inStep.text _) run
  have written' : Answers {} (Infix.text none · _) "-2^3x" :=
    .of_run (fun below => below.inStep.text _) run'
  refine ⟨written, written', fun rho => ?_⟩
  obtain ⟨_, _, values⟩ := text_unambiguous left right
  have signed : (product [power (ofInt (-2)) (ofInt 3), symbol "x"]).Everywhere
      (SignedNode rho) := by
    simp only [everywhere_nary, List.forall_mem_cons]
    exact ⟨trivial, signed_power fun _ => by decide, everywhere_symbol.mpr trivial, by simp⟩
  have signed' : (product [minusOne, power two (ofInt 3), symbol "x"]).Everywhere
      (SignedNode rho) := by
    simp only [everywhere_nary, List.forall_mem_cons]
    exact ⟨trivial, signed_ofInt (-1), signed_power fun negative => absurd negative (by decide),
      everywhere_symbol.mpr trivial, by simp⟩
  exact values none _ written written' rho signed signed'

-- Two trees with one text and different values everywhere.
def Confused (t u : Expr) : Prop :=
  ∃ s, Answers {} (Infix.text none · t) s ∧ Answers {} (Infix.text none · u) s ∧
    ∀ rho, t.Evaluable rho ∧ u.Evaluable rho ∧ t.value rho ≠ u.value rho

theorem text_ambiguous :
    (¬ ∀ (t u : Expr) s rho, t.WellFormed → u.WellFormed → t.Exact → u.Exact →
      t.Lettered → u.Lettered → Answers {} (Infix.text none · t) s →
      Answers {} (Infix.text none · u) s → t.Evaluable rho → u.Evaluable rho →
      t.value rho = u.value rho) ∧
      Confused (power (ofInt (-2)) two) (product [minusOne, power two two]) ∧
      Confused (product [two, power (ofInt 3) two]) (power (ofInt 23) two) := by
  have signs : Confused (power (ofInt (-2)) two) (product [minusOne, power two two]) := by
    have negated : Infix.text none (within {} 0) (power (ofInt (-2)) two) = .done "-2^2" := rfl
    have scaled : Infix.text none (within {} 0) (product [minusOne, power two two]) =
        .done "-2^2" := rfl
    refine ⟨"-2^2", .of_run (fun below => below.inStep.text _) negated,
      .of_run (fun below => below.inStep.text _) scaled, ?_⟩
    intro rho
    refine ⟨evaluable_power _ _ (by decide), evaluable_product _ _ _ (by decide), ?_⟩
    simp [two, minusOne, Nary.total]
    norm_num
  have digits : Confused (product [two, power (ofInt 3) two]) (power (ofInt 23) two) := by
    have apart : Infix.text none (within {} 0) (product [two, power (ofInt 3) two]) =
        .done "23^2" := rfl
    have whole : Infix.text none (within {} 0) (power (ofInt 23) two) = .done "23^2" := rfl
    refine ⟨"23^2", .of_run (fun below => below.inStep.text _) apart,
      .of_run (fun below => below.inStep.text _) whole, ?_⟩
    intro rho
    refine ⟨evaluable_product _ _ _ (by decide), evaluable_power _ _ (by decide), ?_⟩
    simp [two, Nary.total]
    norm_num
  refine ⟨fun claim => ?_, signs, digits⟩
  obtain ⟨s, negated, scaled, differ⟩ := signs
  obtain ⟨evaluable, evaluable', values⟩ := differ fun _ => 0
  exact values (claim _ _ s _ (by decide) (by decide) (by decide) (by decide)
    (by decide) (by decide) negated scaled evaluable evaluable')

end Engine

end SymbolicArith
