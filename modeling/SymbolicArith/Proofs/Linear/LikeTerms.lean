import SymbolicArith.Proofs.Linear.Reduction
import SymbolicArith.Proofs.Reduction.Equivalence

open SymbolicArith.Expr SymbolicArith.Outcome Relation

-- Like terms. A term that no reduction changes is a number, a symbol, or a symbol and a number other
-- than 0 and 1 in either order. Two such terms in the same symbols merge when they are added up.
namespace SymbolicArith

namespace Expr

variable {fs : List Expr} {t : Expr} {q : ℚ}

-- The factors of a reduced term, in one order.
def canonical (symbols : List String) (q : ℚ) : List Expr :=
  symbols.map symbol ++ if symbols ≠ [] ∧ q = 1 then [] else [number (.exact q)]

theorem symbol_mem (member : name ∈ names fs) : symbol name ∈ fs := by
  obtain ⟨f, present, named⟩ := List.mem_filterMap.mp member
  cases f with
  | symbol other =>
    obtain rfl : other = name := by simpa [symbol?] using named
    exact present
  | number | nary | power => simp [symbol?] at named

theorem Monomial.names_eq {gs : List Expr} (monomial : Monomial gs)
    (perm : (names fs).Perm (names gs)) : names fs = names gs := by
  rcases monomial.names_cases with none | ⟨name, one⟩
  · rw [none] at perm ⊢
    exact List.perm_nil.mp perm
  · rw [one] at perm ⊢
    exact List.perm_singleton.mp perm

theorem Term.heavy (term : t.Term) (named : names t.factors ≠ []) : 1 < t.mass := by
  cases term with
  | atom atom =>
    cases atom with
    | number => exact absurd rfl named
    | symbol => simp
  | @product fs long =>
    have bound := length_le_masses fs
    rw [mass_nary]
    omega

theorem factors_of_kind_ne (other : t.kind ≠ .product) : t.factors = [t] := by
  cases t with
  | number | symbol | power => rfl
  | nary op fs =>
    cases op with
    | sum => rfl
    | product => exact absurd rfl other

theorem Flat.eq_of_factors (flat : t.Flat) (single : t.factors = [f]) : t = f := by
  by_cases own : t.kind = .product
  · obtain ⟨fs, rfl⟩ := eq_nary_of_kind own
    obtain rfl : fs = [f] := single
    have long := (flat_nary.mp flat).1.1
    simp at long
  · simpa [factors_of_kind_ne own] using single

end Expr

namespace Engine

variable {engine : Engine Outcome} {x y r t : Expr}

-- A reduced term has a number beside its symbol only if that is neither 0 nor 1.
theorem Normal.factors_perm (complete : Complete engine) (normal : Normal engine t)
    (short : t.Short) : t.factors.Perm (canonical (names t.factors) (scale t.factors)) ∧
      (names t.factors ≠ [] → scale t.factors ≠ 0) := by
  obtain ⟨term, short⟩ := short
  cases term with
  | atom atom =>
    cases atom with
    | number q => simp [factors, canonical]
    | symbol name => simp [factors, canonical]
  | @product fs long monomial =>
    obtain ⟨_, refused⟩ := normal.nary_operands complete
    have others : ∀ f ∈ fs, f.kind ≠ Nary.product.kind := fun f member =>
      (monomial.atoms f member).kind_ne .product
    have literal : ∀ q, number (.exact q) ∈ fs → q ≠ 0 ∧ q ≠ 1 := by
      intro q member
      have none := refused.ne_literal complete others long member
      simpa using none
    simp only [factors] at short ⊢
    obtain ⟨a, b, rfl⟩ := List.length_eq_two.mp (Nat.le_antisymm short long)
    have ofA := monomial.atoms a (by simp)
    have ofB := monomial.atoms b (by simp)
    cases ofA with
    | number p =>
      cases ofB with
      | number q =>
        obtain ⟨v, merged⟩ :=
          merge_numbers complete.standard .product (isNumber_exact p) (isNumber_exact q)
        rw [(List.pairwise_cons.mp refused).1 (number (.exact q)) (by simp)] at merged
        cases merged
      | symbol name =>
        obtain ⟨some, other⟩ := literal p (by simp)
        simpa [canonical, other, some] using List.Perm.swap _ _ []
    | symbol name =>
      cases ofB with
      | number q =>
        obtain ⟨some, other⟩ := literal q (by simp)
        simp [canonical, other, some]
      | symbol other => exact absurd monomial.single (by simp)

theorem Normal.eq_number (complete : Complete engine) (normal : Normal engine t)
    (short : t.Short) (none : names t.factors = []) : t = number (.exact (scale t.factors)) := by
  have perm := (normal.factors_perm complete short).1
  simp only [none, canonical, List.map_nil, List.nil_append, ne_eq, not_true, false_and, if_false,
    List.perm_singleton] at perm
  exact normal.flat.eq_of_factors perm

-- Normal trees with the same factors are equal.
theorem Normal.isEqual_of_perm (complete : Complete engine) (left : Normal engine x)
    (right : Normal engine y) (perm : x.factors.Perm y.factors) : Equal engine x y := by
  by_cases ownX : x.kind = .product
  · obtain ⟨fs, rfl⟩ := eq_nary_of_kind ownX
    by_cases ownY : y.kind = .product
    · obtain ⟨gs, rfl⟩ := eq_nary_of_kind ownY
      have self : engine.Pairs fs fs := List.forall₂_same.mpr fun f member =>
        complete.isEqual_self (exact_nary.mp left.exact f member)
      exact complete.isEqual_of_agree left right (.nary self perm)
    · rw [factors_of_kind_ne ownY, List.perm_singleton] at perm
      obtain rfl := left.flat.eq_of_factors perm
      exact complete.isEqual_self left.exact
  · rw [factors_of_kind_ne ownX, List.singleton_perm] at perm
    obtain rfl := right.flat.eq_of_factors perm.symm
    exact complete.isEqual_self left.exact

theorem Normal.isEqual_of_factors (complete : Complete engine) (left : Normal engine x)
    (right : Normal engine y) (ofX : x.Short) (ofY : y.Short)
    (symbols : names x.factors = names y.factors) (numbers : scale x.factors = scale y.factors) :
    Equal engine x y := by
  have permX := (left.factors_perm complete ofX).1
  have permY := (right.factors_perm complete ofY).1
  rw [symbols, numbers] at permX
  exact left.isEqual_of_perm complete right (permX.trans permY.symm)

-- Where two terms of a sum are refused, nothing is factored out of them.
theorem Complete.unfactored (complete : Complete engine) (left : Normal engine x)
    (right : Normal engine y) (otherX : x.kind ≠ .sum) (otherY : y.kind ≠ .sum) (heavy : 1 < y.mass)
    (refused : engine.merge .sum x y = .done none) : engine.factor .sum x y = .done none := by
  have positiveX := mass_pos x
  obtain ⟨merged, combined, heavier⟩ := merge_none refused
  have plain : Operator.sum.plain x y = sum [x, y] := Nary.sum.join_pair x y otherX otherY
  rw [lighter_iff complete.standard, plain] at heavier
  simp only [mass_nary, masses_cons, masses_nil, Nat.add_zero] at heavier
  simp only [combine, attempt_eq_done] at combined
  rcases combined with folded | ⟨_, ruled | ⟨_, factored | ⟨none, _⟩⟩⟩
  · obtain ⟨a, b, value, rfl, rfl, _, rfl⟩ := foldNumbers_some folded
    simp at heavier
  · obtain ⟨rule, member, _, rfl⟩ := firstRule_some ruled
    simp only [rules, List.mem_cons, List.not_mem_nil, or_false] at member
    rcases member with rfl | rfl
    · exact absurd (by dsimp only; omega) heavier
    · exact absurd (by dsimp only; omega) heavier
  · cases factor_factored factored with
    | doubled equal otherX =>
      rw [Nary.product.join_pair .two x (ofInt_kind_ne 2 .product) otherX] at heavier
      simp only [two, mass_nary, masses_cons, masses_nil, mass_ofInt] at heavier
      omega
    | common own shared =>
      have shrinks := complete.shrinks (x.mass + y.mass)
      have saved := shrinks.common complete left right (Nat.le_refl _) own shared
      omega
  · exact none

theorem Complete.add_like_factors (complete : Complete engine) (left : x.Atom) (right : y.Atom)
    (same : names [x] = names [y]) : engine.merge .sum x y ≠ .done none := by
  intro refused
  cases left with
  | number p =>
    cases right with
    | number q =>
      obtain ⟨v, merged⟩ :=
        merge_numbers complete.standard .sum (isNumber_exact p) (isNumber_exact q)
      rw [refused] at merged
      cases merged
    | symbol => simp at same
  | symbol name =>
    cases right with
    | number => simp at same
    | symbol other =>
      obtain rfl : name = other := by simpa using same
      have normal := complete.normal_atom (.symbol name)
      have none := complete.unfactored normal normal nofun nofun (by simp) refused
      have equal := complete.isEqual_self normal.exact
      simp [factor, ifEqual, equal, Expr.kind] at none

theorem names_view (term : t.Term) :
    names (viewedAs .product t).operands = names t.factors := by
  cases term with
  | atom atom =>
    rw [operands_view_other (atom.kind_ne .product), atom.factors]
    cases atom with
    | number | symbol => rfl
  | product => rw [operands_view_own, factors]

theorem Complete.reduce_pair_lt (complete : Complete engine) (left : Normal engine x)
    (right : Normal engine y) (otherX : x.kind ≠ .sum) (otherY : y.kind ≠ .sum)
    (merges : engine.merge .sum x y ≠ .done none)
    (run : engine.reduce (Nary.sum.join [x, y]) = .done r) :
    r.mass < (Nary.sum.join [x, y]).mass := by
  have join : Nary.sum.join [x, y] = sum [x, y] := Nary.sum.join_pair x y otherX otherY
  rw [join] at run
  obtain ⟨rest, pass, rfl⟩ := Normal.passed complete (by simp [left, right]) run
  cases pass with
  | refused refused => exact absurd ((List.pairwise_cons.mp refused).1 y (by simp)) merges
  | merged first after =>
    obtain ⟨merged, accepted, rfl⟩ := first.of_pair
    obtain rfl := pass_singleton after
    have single := Nary.sum.mass_join_singleton_le merged
    exact Nat.lt_of_le_of_lt single (merge_mass_lt complete.standard accepted)

-- A symbol of both terms is found in their views.
theorem Complete.shares_symbol {found : Split} (complete : Complete engine) (left : x.Term)
    (right : y.Term) (inX : name ∈ names x.factors) (inY : name ∈ names y.factors)
    (search : engine.splitOperands (viewedAs .product x) (viewedAs .product y) = .done found) :
    found.common ≠ [] := by
  intro none
  rw [← names_view left] at inX
  rw [← names_view right] at inY
  have self := complete.isEqual_self (complete.normal_atom (.symbol name)).exact
  have differ := split_apart search none _ (symbol_mem inX) _ (symbol_mem inY)
  cases differ.symm.trans self

theorem Shares.rests_eq {found : Split} (shares : Shares x y found)
    (same : names x.factors = names y.factors) : names found.restX = names found.restY := by
  have ofLeft := names_perm shares.left
  have ofRight := names_perm shares.right
  rw [names_append, names_view shares.ofX.term, same] at ofLeft
  rw [names_append, names_view shares.ofY.term] at ofRight
  have perm := (List.perm_append_left_iff _).mp (ofLeft.trans ofRight.symm)
  exact shares.swap.rest.names_eq perm

-- What two like terms share includes a factor of each, and the factors left of them merge.
theorem Complete.add_like_terms (complete : Complete engine) (left : Normal engine x)
    (right : Normal engine y) (ofX : x.Short) (ofY : y.Short)
    (same : names x.factors = names y.factors) : engine.merge .sum x y ≠ .done none := by
  by_cases atoms : x.kind ≠ .product ∧ y.kind ≠ .product
  · have atomX := ofX.term.atom_of_kind atoms.1
    have atomY := ofY.term.atom_of_kind atoms.2
    rw [atomX.factors, atomY.factors] at same
    exact complete.add_like_factors atomX atomY same
  · intro refused
    rcases ofY.term.monomial.names_cases with none | ⟨name, one⟩
    · rw [left.eq_number complete ofX (same.trans none), right.eq_number complete ofY none] at atoms
      exact atoms ⟨nofun, nofun⟩
    · have heavy := ofY.term.heavy (by simp [one])
      have unfactored := complete.unfactored left right ofX.term.kind_ne_sum ofY.term.kind_ne_sum
        heavy refused
      rw [factor, if_neg atoms] at unfactored
      obtain ⟨found, search, unmerged⟩ := factorSum_none unfactored
      obtain ⟨taken, splits⟩ := split_splits search
      have some : found.common ≠ [] := complete.shares_symbol ofX.term ofY.term
        (show name ∈ _ by simp [same, one]) (by simp [one]) search
      have shares := complete.shares ofX ofY some splits
      obtain ⟨atomX, restX⟩ := shares.atom
      obtain ⟨atomY, restY⟩ := shares.swap.atom
      have rests := restX.trans ((shares.rests_eq same).trans restY.symm)
      have merges := complete.add_like_factors atomX atomY rests
      obtain ⟨reduced, ofRests, heavier⟩ := unmerged some
      rw [lighter_iff complete.standard] at heavier
      exact heavier (complete.reduce_pair_lt (complete.normal_atom atomX)
        (complete.normal_atom atomY) (atomX.kind_ne .sum) (atomY.kind_ne .sum) merges ofRests)

end Engine

end SymbolicArith
