import SymbolicArith.Proofs.Reduction.Complete

open SymbolicArith.Expr SymbolicArith.Outcome

-- What two nodes have in common. The search for it loses no operand and makes up none, whatever the
-- configuration: it takes equal operands out of both nodes in pairs and leaves the rests in their
-- order. Under the standard weights each factored form that is then offered is lighter than the plain
-- node of the two.
namespace SymbolicArith

namespace Engine

variable {config : Config} {engine : Engine Outcome} {x y r reduced : Expr}
  {xs ys taken : List Expr} {found : Split}

-- Every operand of the first node is common or left over, and for the common ones as many equal
-- operands are taken out of the second.
structure Lossless (config : Config) (x y : Expr) (found : Split) : Prop where
  whole : (found.common ++ found.restX).Perm x.operands
  commonOrder : found.common.Sublist x.operands
  restXOrder : found.restX.Sublist x.operands
  taken : ∃ taken, (taken ++ found.restY).Perm y.operands ∧
    List.Forall₂ (fun a b => Answers config (·.isEqual a b) true) found.common taken
  restYOrder : found.restY.Sublist y.operands
  apart : found.common = [] ↔
    ∀ a ∈ x.operands, ∀ b ∈ y.operands, ¬ Answers config (·.isEqual a b) true
  -- and where nothing is common, every pair was compared
  compared : found.common = [] →
    ∀ a ∈ x.operands, ∀ b ∈ y.operands, Answers config (·.isEqual a b) false

theorem answers_findCommon : Answers config (·.findCommon x y) found ↔
    checkAlike x y = .done () ∧ (unbounded config).splitOperands x y = .done found := by
  rw [answers_iff ((unbounded_inStep config).findCommon x y)]
  constructor
  · intro run
    obtain ⟨_, alike, search⟩ := bind_eq_done.mp run
    exact ⟨alike, search⟩
  · rintro ⟨alike, search⟩
    exact bind_eq_done.mpr ⟨(), alike, search⟩

theorem checkAlike_alike (composite : x.isTerminal = false) (alike : x.kind = y.kind) :
    checkAlike x y = .done () := by
  have composite' : y.isTerminal = false := by rwa [isTerminal, ← alike]
  simp [checkAlike, composite, composite', alike]

theorem split_lossless (run : (unbounded config).splitOperands x y = .done found) :
    Lossless config x y found := by
  obtain ⟨taken, splits⟩ := split_splits run
  have pairs : List.Forall₂ (fun a b => Answers config (·.isEqual a b) true) found.common taken :=
    splits.paired.imp fun _ _ => answers_isEqual.mpr
  have compared : found.common = [] →
      ∀ a ∈ x.operands, ∀ b ∈ y.operands, Answers config (·.isEqual a b) false :=
    fun none a inX b inY => answers_isEqual.mpr (split_apart run none a inX b inY)
  refine ⟨splits.left, splits.commonOrder, splits.restXOrder, ⟨taken, splits.right, pairs⟩,
    splits.restYOrder, ⟨?_, ?_⟩, compared⟩
  · intro none a inX b inY equal
    cases equal.unique (compared none a inX b inY)
  · intro apart
    by_contra some
    obtain ⟨a, inCommon⟩ := List.exists_mem_of_ne_nil _ some
    obtain ⟨b, inTaken, equal⟩ := pair_of_mem_left pairs inCommon
    have inX := splits.left.subset (List.mem_append_left _ inCommon)
    have inY := splits.right.subset (List.mem_append_left _ inTaken)
    exact apart a inX b inY equal

-- Under every configuration the search loses nothing, and it ends if the comparisons of operands do.
theorem findCommon_lossless (config : Config) (x y : Expr) :
    (∀ found, Answers config (·.findCommon x y) found → Lossless config x y found) ∧
    (x.isTerminal = false → x.kind = y.kind →
      (∀ a ∈ x.operands, ∀ b ∈ y.operands, ∃ equal, Answers config (·.isEqual a b) equal) →
      ∃ found, Answers config (·.findCommon x y) found) := by
  constructor
  · intro found answer
    exact split_lossless (answers_findCommon.mp answer).2
  · intro composite alike comparisons
    have search : ((unbounded config).splitOperands x y).Finishes := by
      apply finishes_chained.split
      intro a inX b inY
      obtain ⟨equal, answer⟩ := comparisons a inX b inY
      exact ⟨equal, answers_isEqual.mp answer⟩
    obtain ⟨found, ran⟩ := search
    exact ⟨found, answers_findCommon.mpr ⟨checkAlike_alike composite alike, ran⟩⟩

-- In x * y and y * x the search finds x at the end of the second product, and there it passes y by.
theorem findCommon_lossless_of_swapped :
    ∃ found, Answers {} (·.findCommon (product [symbol "x", symbol "y"])
        (product [symbol "y", symbol "x"])) found ∧
      found = ⟨[symbol "x"], [symbol "y"], [symbol "y"]⟩ ∧
      Lossless {} (product [symbol "x", symbol "y"]) (product [symbol "y", symbol "x"]) found := by
  have complete : (unbounded {}).Complete := unbounded_complete (by decide)
  obtain ⟨lossless, ends⟩ := findCommon_lossless {} (product [symbol "x", symbol "y"])
    (product [symbol "y", symbol "x"])
  have left : (product [symbol "x", symbol "y"]).Exact := by decide
  have right : (product [symbol "y", symbol "x"]).Exact := by decide
  obtain ⟨found, answer⟩ := ends rfl rfl fun a inX b inY => by
    obtain ⟨equal, ran⟩ := complete.compares (left.operand inX) (right.operand inY)
    exact ⟨equal, answers_isEqual.mpr ran⟩
  have ran : (within {} 4).findCommon (product [symbol "x", symbol "y"])
      (product [symbol "y", symbol "x"]) = .done ⟨[symbol "x"], [symbol "y"], [symbol "y"]⟩ := by
    cbv
  exact ⟨found, answer, answer.unique (.of_run (fun below => below.inStep.findCommon _ _) ran),
    lossless found answer⟩

-- What is shared is counted twice in the sum of two products, and once in the factored form.
theorem Splits.factored_saves (splits : Splits engine xs ys found taken) (some : found.common ≠ [])
    (lighter : reduced.mass < found.rests.mass) :
    (found.factored reduced).mass + masses taken ≤ (sum [product xs, product ys]).mass := by
  have factored := factored_mass_le reduced some
  have rests := rests_mass_le found
  have restX := Nary.product.mass_join_le found.restX
  have restY := Nary.product.mass_join_le found.restY
  have totalX := splits.massesX
  have totalY := splits.massesY
  simp only [mass_nary, masses_cons, masses_nil]
  omega

namespace Complete

variable (complete : Complete engine)

include complete

theorem factorSum_lighter (run : engine.factorSum (product xs) (product ys) = .done (some r)) :
    r.mass < (sum [product xs, product ys]).mass := by
  obtain ⟨found, reduced, taken, splits, some, ofRests, lighter, ofFactored⟩ := factorSum_some run
  have saved : (found.factored reduced).mass + masses taken ≤
      (sum [product xs, product ys]).mass :=
    Splits.factored_saves splits some ((lighter_iff complete.standard).mp lighter)
  have light := complete.light ofFactored
  have length := splits.paired.length_eq
  have long := List.length_pos_iff.mpr some
  have positive := length_le_masses taken
  omega

-- Of two powers of one base, one base and two nodes are saved beside what the exponents save.
theorem mergePowers_lighter {base exponent base' exponent' : Expr}
    (run : engine.mergePowers base exponent base' exponent' = .done (some r)) :
    r.mass < (product [power base exponent, power base' exponent']).mass := by
  obtain ⟨_, reduced, ofExponents, lighter, rfl⟩ := mergePowers_some run
  have lighter := (lighter_iff complete.standard).mp lighter
  have exponents := Nary.sum.mass_join_pair_le exponent exponent'
  simp only [mass_nary, mass_power, masses_cons, masses_nil]
  omega

end Complete

-- Under the standard weights the search for a factored form of two products, or of two powers, ends,
-- and the form is lighter than the sum of the products, or than the product of the powers.
theorem factored_weight_lt {config : Config} (standard : config.Standard) (left : x.Exact)
    (right : y.Exact) :
    (x.kind = .product → y.kind = .product → ∃ offer, Answers config (·.factorOutSum x y) offer ∧
      ∀ r, offer = some r → r.weight config < (sum [x, y]).weight config) ∧
    (x.kind = .power → y.kind = .power → ∃ offer, Answers config (·.factorOutPower x y) offer ∧
      ∀ r, offer = some r → r.weight config < (product [x, y]).weight config) := by
  have complete := unbounded_complete standard
  simp only [weight_eq_mass standard, Int.ofNat_lt]
  constructor
  · intro ownX ownY
    obtain ⟨xs, rfl⟩ := eq_nary_of_kind ownX
    obtain ⟨ys, rfl⟩ := eq_nary_of_kind ownY
    obtain ⟨offer, ran⟩ := ((complete.capable _).alike left right rfl rfl (Nat.lt_succ_self _)).2
    have alike : checkAlike (product xs) (product ys) = .done () := checkAlike_alike rfl rfl
    have answer : (unbounded config).factorOutSum (product xs) (product ys) = .done offer :=
      bind_eq_done.mpr ⟨(), alike, ran⟩
    refine ⟨offer, (answers_iff ((unbounded_inStep config).factorOutSum _ _)).mpr answer, ?_⟩
    rintro r rfl
    exact complete.factorSum_lighter ran
  · intro ownX ownY
    obtain ⟨offer, ran⟩ := (complete.capable _).factorOutPower left right (.inl ownX)
      (Nat.le_refl _)
    rw [viewedAs_own ownX, viewedAs_own ownY] at ran
    refine ⟨offer, (answers_iff ((unbounded_inStep config).factorOutPower _ _)).mpr ran, ?_⟩
    obtain ⟨base, exponent, rfl⟩ := eq_power_of_kind ownX
    obtain ⟨base', exponent', rfl⟩ := eq_power_of_kind ownY
    rintro r rfl
    exact complete.mergePowers_lighter ran

-- The terms 2 * x and 3 * x make 5 * x, and the factors x ^ 2 and x ^ 3 make x ^ 5.
theorem factored_weight_lt_of_multiples :
    (Answers {} (·.factorOutSum (product [two, symbol "x"]) (product [ofInt 3, symbol "x"]))
        (some (product [ofInt 5, symbol "x"])) ∧
      (product [ofInt 5, symbol "x"]).weight {} <
        (sum [product [two, symbol "x"], product [ofInt 3, symbol "x"]]).weight {}) ∧
    (Answers {} (·.factorOutPower (power (symbol "x") two) (power (symbol "x") (ofInt 3)))
        (some (power (symbol "x") (ofInt 5))) ∧
      (power (symbol "x") (ofInt 5)).weight {} <
        (product [power (symbol "x") two, power (symbol "x") (ofInt 3)]).weight {}) := by
  have standard : ({} : Config).Standard := by decide
  constructor
  · have shared : (within {} 8).factorOutSum (product [two, symbol "x"])
        (product [ofInt 3, symbol "x"]) = .done (some (product [ofInt 5, symbol "x"])) := by cbv
    obtain ⟨offer, answer, lighter⟩ := (factored_weight_lt standard
      (x := product [two, symbol "x"]) (y := product [ofInt 3, symbol "x"])
      (by decide) (by decide)).1 rfl rfl
    have same := answer.unique (.of_run (fun below => below.inStep.factorOutSum _ _) shared)
    exact ⟨same ▸ answer, lighter _ same⟩
  · have merged : (within {} 8).factorOutPower (power (symbol "x") two)
        (power (symbol "x") (ofInt 3)) = .done (some (power (symbol "x") (ofInt 5))) := by cbv
    obtain ⟨offer, answer, lighter⟩ := (factored_weight_lt standard
      (x := power (symbol "x") two) (y := power (symbol "x") (ofInt 3))
      (by decide) (by decide)).2 rfl rfl
    have same := answer.unique (.of_run (fun below => below.factorOutPower _ _) merged)
    exact ⟨same ▸ answer, lighter _ same⟩

end Engine
end SymbolicArith
