import SymbolicArith.Proofs.Linear.Reduction
import SymbolicArith.Proofs.Monomial.Form
import SymbolicArith.Proofs.Reduction.Powers

open SymbolicArith.Expr SymbolicArith.Outcome Relation

-- Reductions of monomials. What two of the factors merge into is such a factor again, so a monomial
-- stays one; and two factors with one symbol always merge, whatever their exponents are.
namespace SymbolicArith

namespace Expr

variable {x : Expr} {fs : List Expr}

-- An elementary factor has an atom for its base and an integer for its exponent.
theorem Elementary.view (elementary : x.Elementary)
    (view : Engine.viewedAs .power x = Expr.power base exponent) :
    base.Atom ∧ (∃ n, exponent = ofInt n) ∧ (x.base? ≠ none → x.base? = base.symbol?) := by
  cases elementary with
  | number q =>
    obtain ⟨rfl, rfl⟩ := Expr.power.inj view
    exact ⟨.number q, ⟨1, rfl⟩, fun some => absurd rfl some⟩
  | symbol name =>
    obtain ⟨rfl, rfl⟩ := Expr.power.inj view
    exact ⟨.symbol name, ⟨1, rfl⟩, fun _ => rfl⟩
  | power name n =>
    obtain ⟨rfl, rfl⟩ := Expr.power.inj view
    exact ⟨.symbol name, ⟨n, rfl⟩, fun _ => rfl⟩

theorem Elementary.named_of_power (elementary : x.Elementary) (own : x.kind = .power) :
    x.base? ≠ none := by
  cases elementary with
  | number | symbol => cases own
  | power name n => exact nofun

theorem Elementary.heavy (elementary : x.Elementary) (named : x.base? ≠ none) : 1000 ≤ x.mass := by
  cases elementary with
  | number => exact absurd rfl named
  | symbol => simp
  | power =>
    simp only [mass_power, mass_symbol]
    omega

theorem powerProduct_join (each : ∀ f ∈ fs, f.Elementary) : (Nary.product.join fs).PowerProduct := by
  rw [Nary.join, flatMap_spliced_of_kind_ne fun f member => (each f member).kind_ne .product]
  exact Nary.collect_induct (.factor (.number 1)) (fun f member => .factor (each f member))
    fun long => .product long each

end Expr

namespace Engine

variable {engine : Engine Outcome} {x y e r s : Expr} {a b : ℤ}

theorem Complete.reduce_exponents (complete : Complete engine) (sound : Sound (fun _ => 0) engine)
    (a b : ℤ) : engine.reduce (Nary.sum.join [ofInt a, ofInt b]) = .done (ofInt (a + b)) := by
  have join : Nary.sum.join [ofInt a, ofInt b] = sum [ofInt a, ofInt b] :=
    Nary.sum.join_pair _ _ (ofInt_kind_ne a .sum) (ofInt_kind_ne b .sum)
  have calculable : (sum [ofInt a, ofInt b]).Calculable engine.config.maxFoldExponent := by
    simp [ofInt, CalculableNode]
  have total : (sum [ofInt a, ofInt b]).amount = ((a + b : ℤ) : ℚ) := by
    simp [amount, Nary.total]
  obtain ⟨value, run, _, alone | rfl⟩ := complete.reduce_calculable sound calculable
  · simp [unwrapped] at alone
  · rw [join, run, total]
    rfl

theorem Complete.merge_elementary (complete : Complete engine) (sound : Sound (fun _ => 0) engine)
    (left : x.Elementary) (right : y.Elementary)
    (accepted : engine.merge .product x y = .done (some r)) : r.Elementary := by
  cases combine_combined (merge_some accepted).1 with
  | folded fold =>
    obtain ⟨v, rfl⟩ := foldLiterals_eq_exact left.exact right.exact fold
    exact .number v
  | ruled member =>
    simp only [rules, List.mem_cons, List.not_mem_nil, or_false] at member
    rcases member with rfl | rfl | rfl | rfl
    · exact .number 0
    · exact .number 0
    · exact right
    · exact left
  | factored shared =>
    cases shared with
    | squared equal otherX otherY =>
      cases left with
      | number p =>
        cases right with
        | number q =>
          obtain ⟨v, merged⟩ :=
            merge_numbers complete.standard .product (isNumber_exact p) (isNumber_exact q)
          rw [accepted] at merged
          cases merged
        | symbol name => cases complete.atoms_eq (.number p) (.symbol name) equal
        | power => exact absurd rfl otherY
      | symbol name => exact .power name 2
      | power => exact absurd rfl otherX
    | sameBase own viewX viewY shared =>
      obtain ⟨atomX, ⟨a, rfl⟩, namedX⟩ := left.view viewX
      obtain ⟨atomY, ⟨b, rfl⟩, namedY⟩ := right.view viewY
      obtain ⟨equal, reduced, ran, _, rfl⟩ := mergePowers_some shared
      obtain rfl := complete.atoms_eq atomX atomY equal
      rw [complete.reduce_exponents sound a b] at ran
      cases ran
      -- a power among the two has a symbol for its base, which is the base of both
      cases atomX with
      | symbol name => exact .power name (a + b)
      | number q =>
        rcases own with own | own
        · exact absurd (namedX (left.named_of_power own)) (left.named_of_power own)
        · exact absurd (namedY (right.named_of_power own)) (right.named_of_power own)
  | plain => exact absurd accepted (merge_ne_plain complete.standard)

theorem Complete.reduce_elementary (complete : Complete engine) (elementary : e.Elementary)
    (run : engine.reduce e = .done r) : r.Elementary := by
  cases elementary with
  | number q =>
    cases done.inj (run.symm.trans (complete.normal_atom (.number q)).fixed)
    exact .number q
  | symbol name =>
    cases done.inj (run.symm.trans (complete.normal_atom (.symbol name)).fixed)
    exact .symbol name
  | power name n =>
    obtain ⟨base, exponent, ofBase, ofExponent, combined⟩ := complete.reduce_power run
    cases done.inj (ofBase.symm.trans (complete.normal_atom (.symbol name)).fixed)
    cases done.inj (ofExponent.symm.trans (Normal.ofInt complete n).fixed)
    cases combine_raised combined with
    | folded folds =>
      obtain ⟨_, _, _, number, _⟩ := foldNumbers_some folds
      cases number
    | ruled rule =>
      obtain ⟨rule, member, _, rfl⟩ := firstRule_some rule
      simp only [rules, List.mem_cons, List.not_mem_nil, or_false] at member
      rcases member with rfl | rfl | rfl | rfl
      · exact .number 1
      · exact .number 0
      · exact .number 1
      · exact .symbol name
    | plain => exact .power name n

theorem Complete.reduce_monomial (complete : Complete engine) (sound : Sound (fun _ => 0) engine)
    (monomial : e.PowerProduct) (run : engine.reduce e = .done r) : r.PowerProduct := by
  cases monomial with
  | factor elementary => exact .factor (complete.reduce_elementary elementary run)
  | @product factors _ each =>
    obtain ⟨reduced, rest, steps, below, pass, rfl⟩ := reduceStep_nary (complete.reduceStep run)
    have elementary : ∀ f ∈ reduced, f.Elementary := by
      intro f member
      obtain ⟨o, present, ran⟩ := pair_of_mem_right below member
      exact complete.reduce_elementary (each o present) ran
    have passed := (sweep_passed (Nat.le_refl _) pass).merges
    exact powerProduct_join (pass_kept (complete.merge_elementary sound) passed elementary)

theorem Complete.settled_monomial (complete : Complete engine) (sound : Sound (fun _ => 0) engine)
    (monomial : e.PowerProduct) (run : engine.settled e = .done r) :
    Normal engine r ∧ r.PowerProduct := by
  obtain ⟨reduced, ran, settles⟩ := bind_eq_done.mp run
  have exact := complete.tame.exact monomial.exact ran
  have kept := complete.reduce_monomial sound monomial ran
  exact complete.settle_kept (complete.reduce_monomial sound) exact (complete.flat ran) kept settles

theorem Complete.mergePowers_ofInt (complete : Complete engine) (sound : Sound (fun _ => 0) engine)
    (name : String) (a b : ℤ) :
    engine.mergePowers (symbol name) (ofInt a) (symbol name) (ofInt b) =
      .done (some (power (symbol name) (ofInt (a + b)))) := by
  have equal := complete.isEqual_self (complete.normal_atom (.symbol name)).exact
  have join : Nary.sum.join [ofInt a, ofInt b] = sum [ofInt a, ofInt b] :=
    Nary.sum.join_pair _ _ (ofInt_kind_ne a .sum) (ofInt_kind_ne b .sum)
  have reduced := complete.reduce_exponents sound a b
  have lighter : engine.lighter (ofInt (a + b)) (sum [ofInt a, ofInt b]) := by
    rw [lighter_iff complete.standard]
    simp
  rw [join] at reduced
  simp [mergePowers, equal, join, reduced, lighter]

-- Two factors with one symbol have a factored form, a power of that symbol.
theorem Complete.factor_like (complete : Complete engine) (sound : Sound (fun _ => 0) engine)
    (left : x.Elementary) (right : y.Elementary) (named : x.base? ≠ none)
    (same : x.base? = y.base?) :
    ∃ name n, engine.factor .product x y = .done (some (power (symbol name) (ofInt n))) := by
  cases left with
  | number => exact absurd rfl named
  | symbol name =>
    cases right with
    | number => cases same
    | symbol other =>
      obtain rfl : name = other := Option.some.inj same
      have equal := complete.isEqual_self (complete.normal_atom (.symbol name)).exact
      exact ⟨name, 2, by simp [factor, ifEqual, equal, Expr.kind, two]⟩
    | power other n =>
      obtain rfl : name = other := Option.some.inj same
      exact ⟨name, 1 + n, complete.mergePowers_ofInt sound name 1 n⟩
  | power name m =>
    cases right with
    | number => cases same
    | symbol other =>
      obtain rfl : name = other := Option.some.inj same
      exact ⟨name, m + 1, complete.mergePowers_ofInt sound name m 1⟩
    | power other n =>
      obtain rfl : name = other := Option.some.inj same
      exact ⟨name, m + n, complete.mergePowers_ofInt sound name m n⟩

-- That power weighs less than the node of the two, and so does whatever a rule puts in its place.
theorem Complete.merge_like (complete : Complete engine) (sound : Sound (fun _ => 0) engine)
    (left : x.Elementary) (right : y.Elementary) (same : x.base? = y.base?) :
    engine.merge .product x y ≠ .done none := by
  intro refused
  by_cases named : x.base? = none
  · obtain ⟨p, rfl⟩ := left.eq_number named
    obtain ⟨q, rfl⟩ := right.eq_number (same.symm.trans named)
    obtain ⟨v, merged⟩ :=
      merge_numbers complete.standard .product (isNumber_exact p) (isNumber_exact q)
    rw [refused] at merged
    cases merged
  · obtain ⟨merged, combined, heavy⟩ := merge_none refused
    have plain : Operator.product.plain x y = product [x, y] :=
      Nary.product.join_pair x y (left.kind_ne .product) (right.kind_ne .product)
    have heavyX := left.heavy named
    have heavyY := right.heavy (same ▸ named)
    rw [lighter_iff complete.standard, plain] at heavy
    simp only [mass_nary, masses_cons, masses_nil, Nat.add_zero] at heavy
    obtain ⟨name, n, shared⟩ := complete.factor_like sound left right named same
    simp only [combine, attempt_eq_done] at combined
    rcases combined with folded | ⟨_, ruled | ⟨_, factored | ⟨none, _⟩⟩⟩
    · obtain ⟨_, _, _, rfl, _⟩ := foldNumbers_some folded
      exact named rfl
    · obtain ⟨rule, member, _, rfl⟩ := firstRule_some ruled
      simp only [rules, List.mem_cons, List.not_mem_nil, or_false] at member
      rcases member with rfl | rfl | rfl | rfl <;> simp only [zero, mass_ofInt] at heavy <;> omega
    · cases done.inj (shared.symm.trans factored)
      simp only [mass_power, mass_symbol, mass_ofInt] at heavy
      omega
    · cases shared.symm.trans none

-- Powers with the exponents 0 and 1 are not left as they are.
theorem Normal.power_exponent (complete : Complete engine) {n : ℤ}
    (normal : Normal engine (power (symbol name) (Expr.ofInt n))) : n ≠ 0 ∧ n ≠ 1 := by
  obtain ⟨_, refused⟩ := normal.power_operands complete
  obtain ⟨merged, combined, heavy⟩ := merge_none refused
  rw [lighter_iff complete.standard] at heavy
  obtain rfl := (combine_raised combined).lighter.resolve_right heavy
  constructor
  · rintro rfl
    have one : engine.combine .power (symbol name) (Expr.ofInt 0) = .done Expr.one := rfl
    cases one.symm.trans combined
  · rintro rfl
    have base : engine.combine .power (symbol name) (Expr.ofInt 1) = .done (symbol name) := rfl
    cases base.symm.trans combined

end Engine

end SymbolicArith
