import SymbolicArith.Proofs.Monomial.Equality
import SymbolicArith.Proofs.Reduction.Powers

open SymbolicArith.Expr SymbolicArith.Outcome

-- Equality under operators. A base or an exponent can be exchanged for an equal one. In sums and
-- products the operands merge with one another as well, and which of them do depends on what each
-- looks like after a single reduction: there an operand can be exchanged where nothing merges across
-- operands, in linear sums, and in products of monomials.
namespace SymbolicArith

namespace Engine

-- Nothing merges across the two operands: their node settles to the node of what they settle to.
def Apart (config : Config) (op : Nary) (x y : Expr) : Prop :=
  ∃ s u, Answers config (·.settled x) s ∧ Answers config (·.settled y) u ∧
    Answers config (·.settled (op.join [x, y])) (op.join [s, u])

-- Where an operand can be exchanged for an equal one.
structure Exchanges (config : Config) : Prop where
  base : ∀ {a b c : Expr}, a.Exact → b.Exact → c.Exact → Answers config (·.isEqual a b) true →
    Answers config (·.isEqual (power a c) (power b c)) true
  exponent : ∀ {a b c : Expr}, a.Exact → b.Exact → c.Exact → Answers config (·.isEqual a b) true →
    Answers config (·.isEqual (power c a) (power c b)) true
  linear : ∀ {a b c : Expr}, a.remade.Linear → b.remade.Linear → c.remade.Linear →
    Answers config (·.isEqual a b) true → Answers config (·.isEqual (a.add c) (b.add c)) true
  monomial : ∀ {a b c : Expr}, a.remade.PowerProduct → b.remade.PowerProduct →
    c.remade.PowerProduct → Answers config (·.isEqual a b) true →
    Answers config (·.isEqual (a.mul c) (b.mul c)) true
  apart : ∀ {op : Nary} {a b c : Expr}, a.Exact → b.Exact → c.Exact → Apart config op a c →
    Apart config op b c → Answers config (·.isEqual a b) true →
    Answers config (·.isEqual (op.join [a, c]) (op.join [b, c])) true

-- Under the standard weights: in every power, in linear sums, in products of monomials, and in sums
-- and products with nothing to merge across their operands.
theorem isEqual_exchanges {config : Config} (standard : config.Standard) : Exchanges config := by
  have complete := unbounded_complete standard
  have recasts := unbounded_remade config
  have sound : ∀ rho, Sound rho (unbounded config) := fun _ => unbounded_sound config
  constructor
  · intro a b c exactA exactB exactC
    simp only [answers_isEqual]
    exact fun equal => complete.power_congr exactA exactB exactC exactC equal
      (complete.isEqual_self exactC)
  · intro a b c exactA exactB exactC
    simp only [answers_isEqual]
    exact fun equal => complete.power_congr exactC exactC exactA exactB
      (complete.isEqual_self exactC) equal
  · intro a b c linearA linearB linearC
    simp only [answers_isEqual]
    intro equal
    have remade := recasts.equal_remade.mpr equal
    have same := complete.isEqual_of_values sound (linearA.join_pair linearC)
      (linearB.join_pair linearC) fun rho => by
        have values := (sound rho).isEqual linearA.regular linearB.regular remade
        simp [Nary.total, values]
    exact recasts.equal_remade.mp (by simpa [Expr.add] using same)
  · intro a b c monomialA monomialB monomialC
    simp only [answers_isEqual]
    intro equal
    have remade := recasts.equal_remade.mpr equal
    have alike := (complete.isEqual_monomial sound monomialA monomialB).mp remade
    have same := (complete.isEqual_monomial sound (monomialA.join_pair monomialC).1
      (monomialB.join_pair monomialC).1).mpr (alike.mul monomialA monomialB monomialC)
    exact recasts.equal_remade.mp (by simpa [Expr.mul] using same)
  · intro op a b c exactA exactB exactC apartA apartB
    simp only [answers_isEqual]
    intro equal
    obtain ⟨s, u, ofA, ofC, left⟩ := apartA
    obtain ⟨v, u', ofB, ofC', right⟩ := apartB
    cases ofC.unique ofC'
    simp only [answers_settled] at ofA ofB left right
    have exactAC : (op.join [a, c]).Exact := Nary.join_exact (by simp [exactA, exactC])
    have exactBC : (op.join [b, c]).Exact := Nary.join_exact (by simp [exactB, exactC])
    have reordered := (complete.isEqual_iff_reordered recasts exactA exactB ofA ofB).mp equal
    refine (complete.isEqual_iff_reordered recasts exactAC exactBC left right).mpr ?_
    simpa using reordered.join_pair (.refl u.remade)

-- Equal to x + x are 2 * x and x * 2, and to x * x is x ^ 2.
theorem isEqual_exchanges_of_doubles :
    Answers {} (·.isEqual (power (sum [symbol "x", symbol "x"]) (symbol "y"))
        (power (product [two, symbol "x"]) (symbol "y"))) true ∧
      Answers {} (·.isEqual (power (symbol "y") (sum [symbol "x", symbol "x"]))
        (power (symbol "y") (product [two, symbol "x"]))) true ∧
      Answers {} (·.isEqual (sum [symbol "x", symbol "x", symbol "x"])
        (sum [product [two, symbol "x"], symbol "x"])) true ∧
      Answers {} (·.isEqual (product [symbol "x", symbol "x", symbol "x"])
        (product [power (symbol "x") two, symbol "x"])) true ∧
      Answers {} (·.isEqual (product [sum [symbol "x", symbol "x"], symbol "y"])
        (product [symbol "x", two, symbol "y"])) true := by
  have exchanges := isEqual_exchanges (show ({} : Config).Standard by decide)
  have twice : (within {} 8).isEqual (sum [symbol "x", symbol "x"]) (product [two, symbol "x"]) =
      .done true := by cbv
  have twice' : (within {} 8).isEqual (sum [symbol "x", symbol "x"]) (product [symbol "x", two]) =
      .done true := by cbv
  have square : (within {} 8).isEqual (product [symbol "x", symbol "x"]) (power (symbol "x") two) =
      .done true := by cbv
  have equal := Answers.of_run (fun below => below.isEqual _ _) twice
  have equal' := Answers.of_run (fun below => below.isEqual _ _) twice'
  have settles : (within {} 8).settled (sum [symbol "x", symbol "x"]) =
      .done (product [two, symbol "x"]) := by cbv
  have settles' : (within {} 8).settled (product [symbol "x", two]) =
      .done (product [symbol "x", two]) := by cbv
  have other : (within {} 8).settled (symbol "y") = .done (symbol "y") := by cbv
  have whole : (within {} 8).settled (product [sum [symbol "x", symbol "x"], symbol "y"]) =
      .done (product [two, symbol "x", symbol "y"]) := by cbv
  have whole' : (within {} 8).settled (product [symbol "x", two, symbol "y"]) =
      .done (product [symbol "x", two, symbol "y"]) := by cbv
  have apart : Apart {} .product (sum [symbol "x", symbol "x"]) (symbol "y") :=
    ⟨_, _, .of_run (fun below => below.settled _) settles,
      .of_run (fun below => below.settled _) other, .of_run (fun below => below.settled _) whole⟩
  have apart' : Apart {} .product (product [symbol "x", two]) (symbol "y") :=
    ⟨_, _, .of_run (fun below => below.settled _) settles',
      .of_run (fun below => below.settled _) other, .of_run (fun below => below.settled _) whole'⟩
  refine ⟨?_, ?_, ?_, ?_, ?_⟩
  · exact exchanges.base (by decide) (by decide) (by decide) equal
  · exact exchanges.exponent (by decide) (by decide) (by decide) equal
  · exact exchanges.linear (c := symbol "x") (by decide) (by decide) (by decide) equal
  · exact exchanges.monomial (c := symbol "x") (by decide) (by decide) (by decide)
      (.of_run (fun below => below.isEqual _ _) square)
  · exact exchanges.apart (by decide) (by decide) (by decide) apart apart' equal'

-- The product x * (y + 1 - 1) is equal to x * y. Next to x it is reduced to x * (y + 0) only, and then
-- y + 0 + 1 is left when x is taken out, which is reduced further; the y + 1 that x * y leaves is
-- not. With x ^ (y + 1 - 1) and x ^ y next to a factor x the exponents are these two sums.
theorem isEqual_depends_on_shape :
    (¬ ∀ a b c : Expr, a.WellFormed → b.WellFormed → c.WellFormed → a.Exact → b.Exact → c.Exact →
      Answers {} (·.isEqual a b) true → Answers {} (·.isEqual (a.add c) (b.add c)) true) ∧
    ¬ ∀ a b c : Expr, a.WellFormed → b.WellFormed → c.WellFormed → a.Exact → b.Exact → c.Exact →
      Answers {} (·.isEqual a b) true → Answers {} (·.isEqual (a.mul c) (b.mul c)) true := by
  constructor
  · intro always
    have equal : (within {} 12).isEqual
        (product [symbol "x", sum [symbol "y", one, minusOne]])
        (product [symbol "x", symbol "y"]) = .done true := by cbv
    have differ : (within {} 12).isEqual
        ((product [symbol "x", sum [symbol "y", one, minusOne]]).add (symbol "x"))
        ((product [symbol "x", symbol "y"]).add (symbol "x")) = .done false := by cbv
    have kept := always _ _ (symbol "x") (by decide) (by decide) (by decide) (by decide) (by decide)
      (by decide) (.of_run (fun below => below.isEqual _ _) equal)
    exact Bool.noConfusion (kept.unique (.of_run (fun below => below.isEqual _ _) differ))
  · intro always
    have equal : (within {} 12).isEqual
        (power (symbol "x") (sum [symbol "y", one, minusOne]))
        (power (symbol "x") (symbol "y")) = .done true := by cbv
    have differ : (within {} 12).isEqual
        ((power (symbol "x") (sum [symbol "y", one, minusOne])).mul (symbol "x"))
        ((power (symbol "x") (symbol "y")).mul (symbol "x")) = .done false := by cbv
    have kept := always _ _ (symbol "x") (by decide) (by decide) (by decide) (by decide) (by decide)
      (by decide) (.of_run (fun below => below.isEqual _ _) equal)
    exact Bool.noConfusion (kept.unique (.of_run (fun below => below.isEqual _ _) differ))

end Engine
end SymbolicArith
