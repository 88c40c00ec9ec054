import Mathlib.Data.List.Nodup
import SymbolicArith.Proofs.Linear.LikeTerms
import SymbolicArith.Proofs.Monomial.Reduction
import SymbolicArith.Proofs.Reduction.Recasting

open SymbolicArith.Expr SymbolicArith.Outcome

-- Equality decides monomials. A monomial settles to its coefficient, as far as that is not 1, and one
-- power for each of its symbols, as far as the exponents add up to something other than 0; so
-- whatever has the same coefficient and degrees settles to the same factors, in some order.
namespace SymbolicArith

namespace Expr

variable {e u f g : Expr} {name : String} {q : ℚ}

-- No symbol has two factors, and no factor is there that a rule would take away.
structure Collected (e : Expr) : Prop where
  monomial : e.PowerProduct
  distinct : (e.factors.map base?).Nodup
  raised : ∀ name n, power (symbol name) (ofInt n) ∈ e.factors → n ≠ 0 ∧ n ≠ 1
  literal : 2 ≤ e.factors.length → ∀ q, number (.exact q) ∈ e.factors → q ≠ 0 ∧ q ≠ 1

theorem Alike.symm (alike : Alike e u) : Alike u e := by
  obtain ⟨scales, degrees⟩ := alike
  refine ⟨scales.symm, ?_⟩
  rcases degrees with none | same
  · exact .inl (scales ▸ none)
  · exact .inr fun name => (same name).symm

theorem Alike.trans {v : Expr} (first : Alike e u) (second : Alike u v) : Alike e v := by
  obtain ⟨scales, degrees⟩ := first
  obtain ⟨scales', degrees'⟩ := second
  refine ⟨scales.trans scales', or_iff_not_imp_left.mpr fun some name => ?_⟩
  have same := degrees.resolve_left some name
  exact same.trans (degrees'.resolve_left (scales ▸ some) name)

theorem number?_eq_none (named : f.base? ≠ none) : f.number? = none := by
  cases f with
  | number => exact absurd rfl named
  | symbol | nary | power => rfl

theorem exists_number {fs : List Expr} (each : ∀ f ∈ fs, f.Elementary) (other : scale fs ≠ 1) :
    ∃ q, number (.exact q) ∈ fs := by
  by_contra none
  have empty : fs.filterMap number? = [] := by
    apply List.filterMap_eq_nil_iff.mpr
    intro f member
    cases each f member with
    | number q => exact absurd ⟨q, member⟩ none
    | symbol | power => rfl
  exact other (by simp [scale, empty])

theorem exists_named (raised : e.degree name ≠ 0) : ∃ f ∈ e.factors, f.base? = some name := by
  by_contra none
  refine raised (List.sum_eq_zero fun n member => ?_)
  obtain ⟨f, present, rfl⟩ := List.mem_map.mp member
  exact exponentOf_eq_zero fun named => none ⟨f, present, named⟩

namespace Collected

variable (collected : e.Collected)

include collected

-- One factor apart, the others have other symbols.
theorem split (member : f ∈ e.factors) : ∃ before after, e.factors = before ++ f :: after ∧
    ∀ g ∈ before ++ after, g.base? ≠ f.base? := by
  obtain ⟨before, after, split⟩ := List.append_of_mem member
  have distinct := collected.distinct
  rw [split, List.map_append, List.map_cons, List.nodup_middle, ← List.map_append,
    List.nodup_cons] at distinct
  exact ⟨before, after, split, fun g present same =>
    distinct.1 (List.mem_map.mpr ⟨g, present, same⟩)⟩

theorem degree_eq (member : f ∈ e.factors) (named : f.base? = some name) :
    e.degree name = exponentOf name f := by
  obtain ⟨before, after, split, others⟩ := collected.split member
  have none : ((before ++ after).map (exponentOf name)).sum = 0 := by
    refine List.sum_eq_zero fun n member => ?_
    obtain ⟨g, present, rfl⟩ := List.mem_map.mp member
    exact exponentOf_eq_zero (named ▸ others g present)
  rw [List.map_append, List.sum_append] at none
  rw [degree, split, List.map_append, List.sum_append, List.map_cons, List.sum_cons]
  omega

theorem scale_eq (member : number (.exact q) ∈ e.factors) : scale e.factors = q := by
  obtain ⟨before, after, split, others⟩ := collected.split member
  have none : (before ++ after).filterMap number? = [] :=
    List.filterMap_eq_nil_iff.mpr fun g present => number?_eq_none (others g present)
  rw [List.filterMap_append, List.append_eq_nil_iff] at none
  simp [scale, split, none, number?]

theorem exponent_ne_zero (member : f ∈ e.factors) (named : f.base? = some name) :
    exponentOf name f ≠ 0 := by
  cases collected.monomial.elementary f member with
  | number => cases named
  | symbol own =>
    obtain rfl : own = name := Option.some.inj named
    simp [exponentOf]
  | power own n =>
    obtain rfl : own = name := Option.some.inj named
    simpa [exponentOf, ofInt] using (collected.raised own n member).1

theorem alone (member : number (.exact q) ∈ e.factors) (trivial : q = 0 ∨ q = 1) :
    e.factors = [number (.exact q)] := by
  have some := List.length_pos_of_mem member
  have short : ¬ 2 ≤ e.factors.length := by
    intro long
    have neither := collected.literal long q member
    tauto
  obtain ⟨o, single⟩ := List.length_eq_one_iff.mp (show e.factors.length = 1 by omega)
  rw [single, List.mem_singleton] at member
  rw [single, member]

-- A symbol and its exponent make up the factor.
theorem factor_eq (collected' : u.Collected) (member : f ∈ e.factors) (member' : g ∈ u.factors)
    (named : f.base? = some name) (named' : g.base? = some name)
    (same : exponentOf name f = exponentOf name g) : f = g := by
  cases collected.monomial.elementary f member with
  | number => cases named
  | symbol own =>
    obtain rfl : own = name := Option.some.inj named
    cases collected'.monomial.elementary g member' with
    | number => cases named'
    | symbol other => rw [Option.some.inj named']
    | power other n =>
      obtain rfl : other = own := Option.some.inj named'
      have plain : 1 = n := by simpa [exponentOf, ofInt] using same
      exact absurd plain.symm (collected'.raised other n member').2
  | power own m =>
    obtain rfl : own = name := Option.some.inj named
    cases collected'.monomial.elementary g member' with
    | number => cases named'
    | symbol other =>
      obtain rfl : other = own := Option.some.inj named'
      have plain : m = 1 := by simpa [exponentOf, ofInt] using same
      exact absurd plain (collected.raised other m member).2
    | power other n =>
      obtain rfl : other = own := Option.some.inj named'
      have exponents : m = n := by simpa [exponentOf, ofInt] using same
      rw [exponents]

theorem mem_of_alike (collected' : u.Collected) (alike : Alike e u) (member : f ∈ e.factors) :
    f ∈ u.factors := by
  obtain ⟨scales, degrees⟩ := alike
  by_cases zero : scale e.factors = 0
  · -- a coefficient of 0 stands alone, on both sides
    obtain ⟨q, present⟩ := exists_number collected.monomial.elementary (by simp [zero])
    obtain ⟨q', present'⟩ :=
      exists_number collected'.monomial.elementary (by simp [← scales, zero])
    obtain rfl : q = 0 := (collected.scale_eq present).symm.trans zero
    obtain rfl : q' = 0 := (collected'.scale_eq present').symm.trans (scales.symm.trans zero)
    rw [collected.alone present (.inl rfl), List.mem_singleton] at member
    exact member ▸ present'
  · have degrees := degrees.resolve_left zero
    by_cases named : f.base? = none
    · obtain ⟨q, rfl⟩ := (collected.monomial.elementary f member).eq_number named
      have coefficient : scale u.factors = q := scales.symm.trans (collected.scale_eq member)
      by_contra missing
      -- so this is 1 and stands alone, while on the other side there is a symbol
      have one : q = 1 := by
        by_contra other
        obtain ⟨q', present⟩ := exists_number collected'.monomial.elementary (coefficient ▸ other)
        obtain rfl : q' = q := (collected'.scale_eq present).symm.trans coefficient
        exact missing present
      have single := collected.alone member (.inr one)
      obtain ⟨g, present⟩ := List.exists_mem_of_ne_nil _ collected'.monomial.factors_ne_nil
      cases named' : g.base? with
      | none =>
        obtain ⟨q', rfl⟩ := (collected'.monomial.elementary g present).eq_number named'
        obtain rfl : q' = q := (collected'.scale_eq present).symm.trans coefficient
        exact missing present
      | some name =>
        have raised := collected'.exponent_ne_zero present named'
        rw [← collected'.degree_eq present named', ← degrees name, degree, single] at raised
        exact raised rfl
    · obtain ⟨name, named⟩ := Option.ne_none_iff_exists'.mp named
      have raised := collected.exponent_ne_zero member named
      rw [← collected.degree_eq member named, degrees name] at raised
      obtain ⟨g, present, named'⟩ := exists_named raised
      have same : exponentOf name f = exponentOf name g := by
        rw [← collected.degree_eq member named, ← collected'.degree_eq present named', degrees name]
      exact collected.factor_eq collected' member present named named' same ▸ present

end Collected

theorem Collected.factors_perm (left : e.Collected) (right : u.Collected) (alike : Alike e u) :
    e.factors.Perm u.factors := by
  refine (List.perm_ext_iff_of_nodup left.distinct.of_map right.distinct.of_map).mpr fun f => ?_
  exact ⟨left.mem_of_alike right alike, right.mem_of_alike left alike.symm⟩

end Expr

namespace Engine

variable {engine : Engine Outcome} {e s t u x y : Expr}

theorem Normal.factors (complete : Complete engine) (normal : Normal engine e)
    (monomial : e.PowerProduct) :
    (∀ f ∈ e.factors, Normal engine f) ∧ Refused engine .product e.factors := by
  cases monomial with
  | factor elementary => simpa [elementary.factors] using normal
  | product => exact normal.nary_operands complete

theorem Normal.collected (complete : Complete engine) (sound : Sound (fun _ => 0) engine)
    (normal : Normal engine e) (monomial : e.PowerProduct) : e.Collected := by
  obtain ⟨normals, refused⟩ := normal.factors complete monomial
  have elementary := monomial.elementary
  refine ⟨monomial, ?_, ?_, ?_⟩
  · rw [List.Nodup, List.pairwise_map]
    refine refused.imp_of_mem ?_
    intro x y inX inY none same
    exact complete.merge_like sound (elementary x inX) (elementary y inY) same none
  · intro name n member
    exact (normals _ member).power_exponent complete
  · intro long q member
    have others : ∀ f ∈ e.factors, f.kind ≠ Nary.product.kind := fun f member =>
      (elementary f member).kind_ne .product
    have neither := refused.ne_literal complete others long member
    simpa using neither

-- A monomial is equal to what it settles to, and that has the same coefficient and degrees.
theorem Complete.settled_collected (complete : Complete engine) (sound : ∀ rho, Sound rho engine)
    (monomial : t.PowerProduct) :
    ∃ s, Normal engine s ∧ s.Collected ∧ Equal engine t s ∧ Alike t s := by
  obtain ⟨s, settled⟩ := complete.settledFinishes monomial.exact
  obtain ⟨normal, monomial'⟩ := complete.settled_monomial (sound _) monomial settled
  have equal : Equal engine t s := complete.isEqual_own_settled monomial.exact settled
  refine ⟨s, normal, normal.collected complete (sound _) monomial', equal, ?_⟩
  refine monomial.alike_of_value monomial' fun rho nonzero => ?_
  exact (sound rho).isEqual (monomial.regular nonzero) (monomial'.regular nonzero) equal

theorem Complete.isEqual_monomial (complete : Complete engine) (sound : ∀ rho, Sound rho engine)
    (left : t.PowerProduct) (right : u.PowerProduct) : Equal engine t u ↔ Alike t u := by
  constructor
  · intro equal
    refine left.alike_of_value right fun rho nonzero => ?_
    exact (sound rho).isEqual (left.regular nonzero) (right.regular nonzero) equal
  · intro alike
    obtain ⟨s, normalS, collectedS, equalS, alikeS⟩ := complete.settled_collected sound left
    obtain ⟨v, normalV, collectedV, equalV, alikeV⟩ := complete.settled_collected sound right
    have perm := collectedS.factors_perm collectedV (alikeS.symm.trans (alike.trans alikeV))
    have between := normalS.isEqual_of_perm complete normalV perm
    have back := complete.symm right.exact normalV.exact equalV
    exact complete.chain left.exact normalS.exact normalV.exact right.exact equalS between back

-- Under the standard weights equality decides monomials, in whichever form their numbers are
-- written: it always answers, and with yes exactly if the two have one coefficient, and unless
-- that is 0 the same degree in every symbol.
theorem isEqual_decides_monomials {config : Config} (standard : config.Standard)
    (left : t.remade.PowerProduct) (right : u.remade.PowerProduct) :
    ∃ equal, Answers config (·.isEqual t u) equal ∧
      (equal = true ↔ scale t.factors = scale u.factors ∧
        (scale t.factors = 0 ∨ ∀ name, t.degree name = u.degree name)) := by
  have complete := unbounded_complete standard
  obtain ⟨equal, ran⟩ := complete.compares left.exact right.exact
  have decides := complete.isEqual_monomial (fun _ => unbounded_sound config) left right
  simp only [Alike, factors_remade, scale_remade, degree_remade] at decides
  refine ⟨equal, answers_isEqual.mpr (((unbounded_remade config).isEqual t u).symm.trans ran), ?_⟩
  rw [← decides, Equal, ran, done.injEq]

-- The product 2 * x * x ^ -3 * y * 3 is x ^ -1 * y ^ 1 * x ^ -1 * 6 * z ^ 0 and not 6 * x ^ -2.
theorem isEqual_decides_monomials_of_quotients :
    let quotient := product [ofInt 2, symbol "x", power (symbol "x") (ofInt (-3)), symbol "y", ofInt 3]
    Answers {} (·.isEqual quotient (product [power (symbol "x") minusOne, power (symbol "y") one,
        power (symbol "x") minusOne, ofInt 6, power (symbol "z") zero])) true ∧
      Answers {} (·.isEqual quotient
        (product [ofInt 6, power (symbol "x") (ofInt (-2))])) false := by
  intro quotient
  have standard : ({} : Config).Standard := by decide
  have left : quotient.remade.PowerProduct := by decide
  have same : (product [power (symbol "x") minusOne, power (symbol "y") one,
    power (symbol "x") minusOne, ofInt 6, power (symbol "z") zero]).remade.PowerProduct := by decide
  have other : (product [ofInt 6, power (symbol "x") (ofInt (-2))]).remade.PowerProduct := by decide
  obtain ⟨equal, answers, decides⟩ := isEqual_decides_monomials standard left same
  obtain ⟨equal', answers', decides'⟩ := isEqual_decides_monomials standard left other
  have yes : equal = true := by
    refine decides.mpr ⟨?_, .inr fun name => ?_⟩
    · have six : (2 : ℚ) * 3 = 6 := by norm_num
      simp [quotient, factors, minusOne, one, zero, ofInt, six]
    · by_cases x : "x" = name
      · simp [quotient, degree, factors, exponentOf, minusOne, one, zero, ofInt, ← x]
      · simp [quotient, degree, factors, exponentOf, minusOne, one, zero, ofInt, x]
  have no : equal' = false := by
    apply Bool.eq_false_iff.mpr
    intro wrong
    obtain ⟨_, degrees⟩ := decides'.mp wrong
    have degree := degrees.resolve_left (by simp [quotient, factors, ofInt]) "y"
    simp [quotient, Expr.degree, factors, exponentOf, ofInt] at degree
  exact ⟨yes ▸ answers, no ▸ answers'⟩

end Engine

end SymbolicArith
