import SymbolicArith.Proofs.Linear.Form
import SymbolicArith.Proofs.Reduction.Calculation
import SymbolicArith.Proofs.Reduction.Settling

open SymbolicArith.Expr SymbolicArith.Outcome Relation

-- Reductions of linear expressions. A pass over the factors of a term leaves two of them at most,
-- and what two such terms of a sum merge into is a term again, so a linear expression stays one.
namespace SymbolicArith

namespace Engine

variable {engine : Engine Outcome} {op : Nary} {x y e r : Expr} {xs ys es taken : List Expr}
  {found : Split} {p q : ℚ}

theorem Complete.normal_atom (complete : Complete engine) (atom : e.Atom) : Normal engine e :=
  .terminal complete atom.exact atom.terminal

theorem merge_ne_plain {op : Operator} (standard : engine.config.Standard) :
    engine.merge op x y ≠ .done (some (op.plain x y)) := by
  intro accepted
  have lighter := merge_mass_lt standard accepted
  exact Nat.lt_irrefl _ lighter

theorem Complete.atoms_eq (complete : Complete engine) (left : x.Atom) (right : y.Atom)
    (equal : engine.isEqual x y = .done true) : x = y := by
  have agree := (complete.normal_atom left).agree complete (complete.normal_atom right) equal
  cases agree with
  | number same =>
    cases left with
    | number p =>
      cases right with
      | number q =>
        rw [Literal.equals_eq (Literal.rational?_exact p) (Literal.rational?_exact q)] at same
        rw [of_decide_eq_true same]
  | symbol => rfl
  | nary => cases left
  | power => cases left

-- What two factors merge into is a factor, with no more symbols.
theorem Complete.merge_factors (complete : Complete engine) (monomial : Monomial [x, y])
    (accepted : engine.merge .product x y = .done (some r)) :
    r.Atom ∧ (names [r]).length ≤ (names [x, y]).length := by
  have left : x.Atom := monomial.atoms x (by simp)
  have right : y.Atom := monomial.atoms y (by simp)
  cases combine_combined (merge_some accepted).1 with
  | folded fold =>
    obtain ⟨v, rfl⟩ := foldLiterals_eq_exact left.exact right.exact fold
    exact ⟨.number v, by simp⟩
  | ruled member =>
    simp only [rules, List.mem_cons, List.not_mem_nil, or_false] at member
    rcases member with rfl | rfl | rfl | rfl
    · exact ⟨.number 0, by simp [zero, ofInt]⟩
    · exact ⟨.number 0, by simp [zero, ofInt]⟩
    · exact ⟨right, ((List.sublist_cons_self x [y]).filterMap symbol?).length_le⟩
    · exact ⟨left, (List.Sublist.filterMap symbol? (by simp)).length_le⟩
  | factored shared =>
    cases shared with
    | squared equal =>
      obtain rfl := complete.atoms_eq left right equal
      cases left with
      | number q =>
        obtain ⟨v, merged⟩ :=
          merge_numbers complete.standard .product (isNumber_exact q) (isNumber_exact q)
        rw [accepted] at merged
        cases merged
      | symbol => exact absurd monomial.single (by simp)
    | sameBase own =>
      rcases own with own | own
      · exact absurd own (left.kind_ne .power)
      · exact absurd own (right.kind_ne .power)
  | plain => exact absurd accepted (merge_ne_plain complete.standard)

theorem Complete.merges_monomial (complete : Complete engine)
    (step : Merges engine .product xs ys) (monomial : Monomial xs) : Monomial ys := by
  cases step with
  | @merge x y merged before between after accepted =>
    have front : (before ++ x :: (between ++ y :: after)).Perm
        ([x, y] ++ (before ++ (between ++ after))) := by
      refine List.perm_middle.trans (.cons x ?_)
      rw [← List.append_assoc, ← List.append_assoc]
      exact List.perm_middle
    have monomial := monomial.perm front.symm
    have pair : Monomial [x, y] := monomial.sublist (List.sublist_append_left _ _)
    obtain ⟨atom, fewer⟩ := complete.merge_factors pair accepted
    have single := monomial.single
    rw [names_append, List.length_append] at single
    have after : Monomial ([merged] ++ (before ++ (between ++ after))) := by
      constructor
      · simpa [atom] using fun f member => monomial.atoms f (by simp [member])
      · rw [names_append, List.length_append]
        omega
    exact after.perm List.perm_middle

theorem Complete.pass_monomial (complete : Complete engine)
    (run : ReflTransGen (Merges engine .product) xs ys) (monomial : Monomial xs) :
    Monomial ys := by
  induction run with
  | refl => exact monomial
  | tail _ step ih => exact complete.merges_monomial step ih

-- The first factor leaves numbers only, or a single factor: as long as it is a number it absorbs
-- the other numbers, and once it is the symbol there is no other symbol.
theorem Complete.absorb_factors {absorbed : Absorbed} (complete : Complete engine)
    (monomial : Monomial (x :: ys)) (run : engine.absorb .product x ys = .done absorbed) :
    (∀ y ∈ absorbed.rest, ∃ q, y.IsNumber q) ∨ absorbed.rest.length ≤ 1 := by
  induction ys generalizing x absorbed with
  | nil =>
    cases done.inj run
    exact .inr (Nat.zero_le 1)
  | cons y ys ih =>
    obtain ⟨answer, merged, run⟩ := bind_eq_done.mp run
    cases answer with
    | some merger =>
      obtain ⟨after, ran, answer⟩ := bind_eq_done.mp run
      cases done.inj answer
      have step : Merges engine .product (x :: y :: ys) (merger :: ys) := .merge [] [] ys merged
      have left := ih (complete.merges_monomial step monomial) ran
      exact left
    | none =>
      obtain ⟨after, ran, answer⟩ := bind_eq_done.mp run
      cases done.inj answer
      have order := absorb_rest_sublist ran
      have first := monomial.atoms x (by simp)
      have second := monomial.atoms y (by simp)
      cases first with
      | number p =>
        cases second with
        | number q =>
          obtain ⟨v, accepted⟩ :=
            merge_numbers complete.standard .product (isNumber_exact p) (isNumber_exact q)
          rw [merged] at accepted
          cases accepted
        | symbol name =>
          have none : names ys = [] := by simpa using monomial.single
          have others : Monomial ys := monomial.sublist (by simp)
          have none :=
            absorb_numbers complete.standard (isNumber_exact p) (others.numbers none) ran
          exact .inr (by simp [none])
      | symbol name =>
        have none : names (y :: ys) = [] := by simpa using monomial.single
        have others : Monomial (y :: ys) := monomial.sublist (by simp)
        have numbers := others.numbers none
        exact .inl fun o member => numbers o ((order.cons_cons y).subset member)

-- So a pass over the factors of a term leaves two at most.
theorem Complete.sweep_factors {turns : Nat} (complete : Complete engine) (monomial : Monomial xs)
    (enough : xs.length ≤ turns)
    (run : engine.sweep .product turns xs = .done (ys, steps)) : ys.length ≤ 2 := by
  cases turns with
  | zero =>
    obtain rfl : xs = [] := List.length_eq_zero_iff.mp (by omega)
    cases done.inj run
    exact Nat.zero_le 2
  | succ turns =>
    cases xs with
    | nil =>
      cases done.inj run
      exact Nat.zero_le 2
    | cons x xs =>
      obtain ⟨absorbed, first, run⟩ := bind_eq_done.mp run
      obtain ⟨⟨rest, later⟩, second, answer⟩ := bind_eq_done.mp run
      cases done.inj answer
      have shorter := (absorb_rest_sublist first).length_le
      simp only [List.length_cons] at enough ⊢
      rcases complete.absorb_factors monomial first with numbers | single
      · have left := sweep_numbers complete.standard numbers (by omega) second
        omega
      · have left := pass_length_le (sweep_passed (by omega) second).merges
        omega

theorem Complete.reduce_term (complete : Complete engine) (term : e.Term)
    (run : engine.reduce e = .done r) : r.Short := by
  cases term with
  | atom atom =>
    obtain rfl := done.inj (run.symm.trans (complete.normal_atom atom).fixed)
    exact atom.short
  | @product factors long monomial =>
    obtain ⟨reduced, rest, steps, below, pass, rfl⟩ := reduceStep_nary (complete.reduceStep run)
    have fixed : List.Forall₂ (fun e r => engine.reduce e = .done r) factors factors :=
      List.forall₂_same.mpr fun f member => (complete.normal_atom (monomial.atoms f member)).fixed
    rw [← mapM_eq_done] at below fixed
    obtain rfl := done.inj (below.symm.trans fixed)
    have monomial' :=
      complete.pass_monomial (sweep_passed (Nat.le_refl _) pass).merges monomial
    rw [monomial'.join_eq]
    exact monomial'.collect_short (complete.sweep_factors monomial (Nat.le_refl _) pass)

theorem double_factor (atom : x.Atom) : (Nary.product.join [.two, x]).Short ∧
    names (Nary.product.join [.two, x]).factors = names [x] := by
  have monomial : Monomial [.two, x] := ⟨by simpa using ⟨.number 2, atom⟩, atom.monomial.single⟩
  rw [monomial.join_eq, monomial.factors_collect (List.cons_ne_nil _ _)]
  exact ⟨monomial.collect_short (Nat.le_refl 2), rfl⟩

-- Two factors that are added up and merge give a term in the symbols of one of them.
theorem Complete.add_factors (complete : Complete engine) (left : x.Atom) (right : y.Atom)
    (accepted : engine.merge .sum x y = .done (some r)) :
    r.Short ∧ (names r.factors = names [x] ∨ names r.factors = names [y]) := by
  cases combine_combined (merge_some accepted).1 with
  | folded fold =>
    obtain ⟨v, rfl⟩ := foldLiterals_eq_exact left.exact right.exact fold
    exact ⟨(Atom.number v).short, .inl rfl⟩
  | ruled member =>
    simp only [rules, List.mem_cons, List.not_mem_nil, or_false] at member
    rcases member with rfl | rfl
    · exact ⟨right.short, .inr (by rw [right.factors])⟩
    · exact ⟨left.short, .inl (by rw [left.factors])⟩
  | factored shared =>
    cases shared with
    | doubled =>
      obtain ⟨short, symbols⟩ := double_factor left
      exact ⟨short, .inl symbols⟩
    | common own =>
      rcases own with own | own
      · exact absurd own (left.kind_ne .product)
      · exact absurd own (right.kind_ne .product)
  | plain => exact absurd accepted (merge_ne_plain complete.standard)

theorem view_factors (short : x.Short) :
    Monomial (viewedAs .product x).operands ∧ (viewedAs .product x).operands.length = 2 := by
  obtain ⟨term, short⟩ := short
  cases term with
  | atom atom =>
    rw [operands_view_other (atom.kind_ne .product)]
    refine ⟨⟨by simpa using ⟨atom, .number 1⟩, ?_⟩, rfl⟩
    cases atom with
    | number | symbol => simp [one, ofInt]
  | product long monomial =>
    rw [operands_view_own]
    exact ⟨monomial, Nat.le_antisymm short long⟩

theorem Complete.pairs_eq (complete : Complete engine) (left : ∀ x ∈ xs, x.Atom)
    (right : ∀ y ∈ ys, y.Atom) (paired : engine.Pairs xs ys) : xs = ys := by
  rw [← List.forall₂_eq_eq_eq]
  exact pairs_imp paired fun x inX y inY => complete.atoms_eq (left x inX) (right y inY)

-- What two short terms have in common, and the one factor that may be left of each.
structure Shares (x y : Expr) (found : Split) : Prop where
  left : (found.common ++ found.restX).Perm (viewedAs .product x).operands
  right : (found.common ++ found.restY).Perm (viewedAs .product y).operands
  some : found.common ≠ []
  ofX : x.Short
  ofY : y.Short

theorem Complete.shares (complete : Complete engine) (left : x.Short) (right : y.Short)
    (some : found.common ≠ []) (splits : Splits engine (viewedAs .product x).operands
      (viewedAs .product y).operands found taken) : Shares x y found := by
  obtain rfl : found.common = taken := by
    refine complete.pairs_eq ?_ ?_ splits.paired
    · intro f member
      exact (view_factors left).1.atoms f (splits.commonOrder.subset member)
    · intro f member
      exact (view_factors right).1.atoms f (splits.right.subset (List.mem_append_left _ member))
  exact ⟨splits.left, splits.right, some, left, right⟩

namespace Shares

theorem swap (shares : Shares x y found) :
    Shares y x ⟨found.common, found.restY, found.restX⟩ :=
  ⟨shares.right, shares.left, shares.some, shares.ofY, shares.ofX⟩

theorem monomial (shares : Shares x y found) : Monomial (found.common ++ found.restX) :=
  (view_factors shares.ofX).1.perm shares.left

theorem rest (shares : Shares x y found) : Monomial found.restX :=
  shares.monomial.sublist (List.sublist_append_right _ _)

theorem atom (shares : Shares x y found) : (Nary.product.join found.restX).Atom ∧
    names [Nary.product.join found.restX] = names found.restX := by
  have length := shares.left.length_eq
  have long := List.length_pos_iff.mpr shares.some
  rw [(view_factors shares.ofX).2, List.length_append] at length
  rw [shares.rest.join_eq]
  exact shares.rest.collect_atom (by omega)

-- A term in the symbols that are left of one of the two, times what they have in common.
theorem factored (shares : Shares x y found) (term : e.Term)
    (symbols : names e.factors = names found.restX) : (found.factored e).Term := by
  have common : Monomial found.common := shares.monomial.sublist (List.sublist_append_left _ _)
  have whole : Monomial (e.factors ++ found.common) := by
    have single := shares.monomial.single
    simp only [names_append, List.length_append] at single
    constructor
    · intro f member
      rcases List.mem_append.mp member with inTerm | inCommon
      · exact term.monomial.atoms f inTerm
      · exact common.atoms f inCommon
    · rw [names_append, List.length_append, symbols]
      omega
  have joined : found.factored e = Nary.product.collect (e.factors ++ found.common) := by
    rw [Split.factored, common.join_eq, Nary.join]
    simp [spliced_product, common.factors_collect shares.some]
  exact joined ▸ whole.collect_term

end Shares

-- What two terms share is factored out of them as one term: of each at most one factor is left.
theorem Complete.factor_terms (complete : Complete engine) (left : x.Short) (right : y.Short)
    (shared : engine.factorSum (viewedAs .product x) (viewedAs .product y) = .done (some r)) :
    r.Short := by
  obtain ⟨found, reduced, taken, splits, some, ofRests, lighter, ofFactored⟩ :=
    factorSum_some shared
  rw [lighter_iff complete.standard] at lighter
  have shares := complete.shares left right some splits
  obtain ⟨atomX, namesX⟩ := shares.atom
  obtain ⟨atomY, namesY⟩ := shares.swap.atom
  obtain ⟨merged, accepted, rfl⟩ := pair_merged complete (complete.normal_atom atomX)
    (complete.normal_atom atomY) (atomX.kind_ne .sum) (atomY.kind_ne .sum) ofRests lighter
  obtain ⟨short, symbols⟩ := complete.add_factors atomX atomY accepted
  have alone : Nary.sum.join [merged] = merged := join_terms (by simpa using short.term)
  rw [alone] at ofFactored
  rcases symbols with same | same
  · exact complete.reduce_term (shares.factored short.term (same.trans namesX)) ofFactored
  · exact complete.reduce_term (shares.swap.factored short.term (same.trans namesY)) ofFactored

theorem Complete.merge_terms (complete : Complete engine) (left : x.Short) (right : y.Short)
    (accepted : engine.merge .sum x y = .done (some r)) : r.Short := by
  cases combine_combined (merge_some accepted).1 with
  | folded fold =>
    obtain ⟨v, rfl⟩ := foldLiterals_eq_exact left.term.exact right.term.exact fold
    exact (Atom.number v).short
  | ruled member =>
    simp only [rules, List.mem_cons, List.not_mem_nil, or_false] at member
    rcases member with rfl | rfl
    · exact right
    · exact left
  | factored shared =>
    cases shared with
    | doubled equal otherX => exact (double_factor (left.term.atom_of_kind otherX)).1
    | common _ shared => exact complete.factor_terms left right shared
  | plain => exact absurd accepted (merge_ne_plain complete.standard)

-- A reduction of a linear expression is one, with terms of two factors at most.
theorem Complete.reduce_linear (complete : Complete engine) (linear : e.Linear)
    (run : engine.reduce e = .done r) : r.Condensed := by
  cases linear with
  | term term => exact (complete.reduce_term term run).condensed
  | @sum terms long each =>
    cases reduceStep_reduced (complete.reduceStep run) with
    | terminal terminal => cases terminal
    | @nary _ _ reduced rest below pass =>
      have short : ∀ t ∈ reduced, t.Short := by
        intro t member
        obtain ⟨o, present, ran⟩ := pair_of_mem_right below member
        exact complete.reduce_term (each o present) ran
      have kept : ∀ t ∈ rest, t.Short := pass_kept complete.merge_terms pass.merges short
      have some : reduced ≠ [] := by
        rw [← List.length_pos_iff, ← below.length_eq]
        omega
      have some' := pass_ne_nil pass.merges some
      rw [join_terms fun t member => (kept t member).term]
      match rest with
      | [] => exact absurd rfl some'
      | [t] => exact (kept t (by simp)).condensed
      | _ :: _ :: _ => exact ⟨.sum (by simp) fun t member => (kept t member).term, kept⟩

theorem Complete.settled_linear (complete : Complete engine) (linear : e.Linear)
    (run : engine.settled e = .done r) : Normal engine r ∧ r.Condensed := by
  obtain ⟨reduced, ran, settles⟩ := bind_eq_done.mp run
  have exact := complete.tame.exact linear.exact ran
  have condensed := complete.reduce_linear linear ran
  exact complete.settle_kept (fun kept ran => complete.reduce_linear kept.linear ran) exact
    (complete.flat ran) condensed settles

end Engine

end SymbolicArith
