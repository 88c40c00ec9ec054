import SymbolicArith.Proofs.Linear.Equality
import SymbolicArith.Proofs.Reduction.Settling
import SymbolicArith.Proofs.WellFormed

open SymbolicArith.Expr SymbolicArith.Outcome

-- Equality up to the order of operands. On settled trees that is all there is to equality: the operands
-- that are paired off are settled too, down to the terminals. Reductions are greedy and depend on the
-- order of operands, so two orders of one tree need not settle to two orders of one tree.
namespace SymbolicArith

-- The second tree is the first with the operands of its sums and products in some other order, at any
-- depth. A base and an exponent keep their places.
inductive Expr.Reordered : Expr → Expr → Prop
  | number {value : Literal} : Reordered (.number value) (.number value)
  | symbol {name : String} : Reordered (.symbol name) (.symbol name)
  | nary {op : Nary} {xs ys zs : List Expr} (pairs : List.Forall₂ Reordered xs zs)
      (order : zs.Perm ys) : Reordered (.nary op xs) (.nary op ys)
  | power {base exponent base' exponent' : Expr} (bases : Reordered base base')
      (exponents : Reordered exponent exponent') :
      Reordered (.power base exponent) (.power base' exponent')

theorem Paired.append {R : α → β → Prop} {xs xs' : List α} {ys ys' : List β}
    (first : Paired R xs ys) (second : Paired R xs' ys') : Paired R (xs ++ xs') (ys ++ ys') := by
  obtain ⟨zs, pairs, order⟩ := first
  obtain ⟨zs', pairs', order'⟩ := second
  exact ⟨zs ++ zs', List.rel_append pairs pairs', order.append order'⟩

namespace Expr

namespace Reordered

variable {op : Nary} {xs ys : List Expr} {x x' y y' : Expr}

theorem refl (e : Expr) : e.Reordered e := by
  induction e with
  | number => exact .number
  | symbol => exact .symbol
  | nary op es ih => exact .nary (List.forall₂_same.mpr ih) (.refl es)
  | power base exponent ofBase ofExponent => exact .power ofBase ofExponent

theorem of_perm (order : xs.Perm ys) : (Expr.nary op xs).Reordered (Expr.nary op ys) :=
  .nary (List.forall₂_same.mpr fun e _ => .refl e) order

theorem recast {c : Recasting} (reordered : x.Reordered y) :
    (x.recast c).Reordered (y.recast c) := by
  induction x generalizing y with
  | number | symbol =>
    cases reordered
    exact .refl _
  | nary op xs ih =>
    cases reordered with
    | @nary _ _ _ zs pairs order =>
      rw [recast_nary, recast_nary]
      refine .nary ?_ (order.map (Expr.recast c))
      rw [List.forall₂_map_left_iff, List.forall₂_map_right_iff]
      exact pairs_imp pairs fun a inA b _ pair => ih a inA pair
  | power base exponent ofBase ofExponent =>
    cases reordered with
    | power bases exponents =>
      rw [recast_power, recast_power]
      exact .power (ofBase bases) (ofExponent exponents)

theorem value_eq (reordered : x.Reordered y) (rho : String → ℚ) : y.value rho = x.value rho := by
  induction x generalizing y with
  | number | symbol =>
    cases reordered
    rfl
  | nary op xs ih =>
    cases reordered with
    | nary pairs order =>
      have values := map_eq_of_pairs (pairs_imp pairs fun a inA b _ pair => ih a inA pair)
      rw [value_nary, value_nary, ← values, Nary.total_perm op (order.map (value rho))]
  | power base exponent ofBase ofExponent =>
    cases reordered with
    | power bases exponents => rw [value_power, value_power, ofBase bases, ofExponent exponents]

theorem spliced (reordered : x.Reordered y) :
    Paired Reordered (x.spliced op) (y.spliced op) := by
  cases reordered with
  | number => exact ⟨_, .cons .number .nil, .refl _⟩
  | symbol => exact ⟨_, .cons .symbol .nil, .refl _⟩
  | power bases exponents => exact ⟨_, .cons (.power bases exponents) .nil, .refl _⟩
  | @nary own _ _ zs pairs order =>
    by_cases same : own = op
    · subst same
      rw [spliced_self, spliced_self]
      exact ⟨zs, pairs, order⟩
    · simp only [Expr.spliced, same, if_false]
      exact ⟨_, .cons (.nary pairs order) .nil, .refl _⟩

theorem collect (paired : Paired Reordered xs ys) :
    (op.collect xs).Reordered (op.collect ys) := by
  obtain ⟨zs, pairs, order⟩ := paired
  match xs, pairs with
  | [], .nil =>
    rw [List.nil_perm.mp order]
    exact .refl _
  | [_], .cons pair .nil =>
    obtain rfl := List.singleton_perm.mp order
    exact pair
  | _ :: _ :: _, pairs =>
    have long : 2 ≤ ys.length := by
      rw [← order.length_eq, ← pairs.length_eq]
      simp
    rw [Nary.collect_of_two_le long]
    exact .nary pairs order

theorem join_pair (first : x.Reordered x') (second : y.Reordered y') :
    (op.join [x, y]).Reordered (op.join [x', y']) := by
  have parts : Paired Reordered (x.spliced op ++ y.spliced op) (x'.spliced op ++ y'.spliced op) :=
    first.spliced.append second.spliced
  simpa [Nary.join] using collect parts

end Reordered

theorem Atom.reordered {x y : Expr} (atom : x.Atom) (reordered : x.Reordered y) : x = y := by
  cases atom with
  | number | symbol =>
    cases reordered
    rfl

theorem Term.reordered {x y : Expr} (term : x.Term) (reordered : x.Reordered y) : y.Term := by
  cases term with
  | atom atom => exact atom.reordered reordered ▸ .atom atom
  | product long monomial =>
    cases reordered with
    | nary pairs order =>
      have same := pairs_imp pairs fun a inA b _ pair => (monomial.atoms a inA).reordered pair
      obtain rfl := List.forall₂_eq_eq_eq ▸ same
      exact .product (order.length_eq ▸ long) (monomial.perm order.symm)

theorem Linear.reordered {x y : Expr} (linear : x.Linear) (reordered : x.Reordered y) :
    y.Linear := by
  cases linear with
  | term term => exact .term (term.reordered reordered)
  | sum long each =>
    cases reordered with
    | nary pairs order =>
      refine .sum (by rw [← order.length_eq, ← pairs.length_eq]; exact long) fun t member => ?_
      obtain ⟨s, present, pair⟩ := pair_of_mem_right pairs (order.symm.subset member)
      exact (each s present).reordered pair

end Expr

namespace Engine

variable {engine : Engine Outcome} {s t u v x y : Expr}

-- Both directions go down the tree: what pairs off two settled trees pairs settled operands.
theorem Normal.reordered_of_equal (complete : Complete engine) (left : Normal engine x)
    (right : Normal engine y) (canonicalX : x.Canonical) (canonicalY : y.Canonical)
    (equal : Equal engine x y) : x.Reordered y := by
  induction x generalizing y with
  | number value =>
    cases left.agree complete right equal with
    | @number _ value' same =>
      obtain ⟨p, isX⟩ := left.exact.number
      obtain ⟨q, isY⟩ := right.exact.number
      rw [Literal.equals_eq isX isY, decide_eq_true_eq] at same
      have first : value = .exact p := (everywhere_number.mp canonicalX).eq_exact isX
      have second : value' = .exact q := (everywhere_number.mp canonicalY).eq_exact isY
      rw [first, second, same]
      exact .number
  | symbol name =>
    cases left.agree complete right equal with
    | symbol => exact .symbol
  | nary op xs ih =>
    cases left.agree complete right equal with
    | nary paired order =>
      obtain ⟨normalX, _⟩ := left.nary_operands complete
      obtain ⟨normalY, _⟩ := right.nary_operands complete
      refine .nary (pairs_imp paired fun a inA b inB equal => ?_) order
      have present := order.subset inB
      exact ih a inA (normalX a inA) (normalY b present) (canonicalX.operand inA)
        (canonicalY.operand present) equal
  | power base exponent ofBase ofExponent =>
    cases left.agree complete right equal with
    | power bases exponents =>
      obtain ⟨⟨base, exponent⟩, _⟩ := left.power_operands complete
      obtain ⟨⟨base', exponent'⟩, _⟩ := right.power_operands complete
      obtain ⟨_, canonical, canonical'⟩ := everywhere_power.mp canonicalX
      obtain ⟨_, other, other'⟩ := everywhere_power.mp canonicalY
      exact .power (ofBase base base' canonical other bases)
        (ofExponent exponent exponent' canonical' other' exponents)

theorem Normal.equal_of_reordered (complete : Complete engine) (left : Normal engine x)
    (right : Normal engine y) (reordered : x.Reordered y) : Equal engine x y := by
  induction x generalizing y with
  | number | symbol =>
    cases reordered
    exact complete.isEqual_self left.exact
  | nary op xs ih =>
    cases reordered with
    | nary pairs order =>
      obtain ⟨normalX, _⟩ := left.nary_operands complete
      obtain ⟨normalY, _⟩ := right.nary_operands complete
      refine complete.isEqual_of_agree left right (.nary (pairs_imp pairs ?_) order)
      intro a inA b inB reordered
      exact ih a inA (normalX a inA) (normalY b (order.subset inB)) reordered
  | power base exponent ofBase ofExponent =>
    cases reordered with
    | power bases exponents =>
      obtain ⟨⟨base, exponent⟩, _⟩ := left.power_operands complete
      obtain ⟨⟨base', exponent'⟩, _⟩ := right.power_operands complete
      exact complete.isEqual_of_agree left right
        (.power (ofBase base base' bases) (ofExponent exponent exponent' exponents))

theorem Normal.isEqual_iff (complete : Complete engine) (left : Normal engine x)
    (right : Normal engine y) (canonicalX : x.Canonical) (canonicalY : y.Canonical) :
    Equal engine x y ↔ x.Reordered y :=
  ⟨left.reordered_of_equal complete right canonicalX canonicalY,
    left.equal_of_reordered complete right⟩

-- Equality of any two trees is equality of what they settle to.
theorem Complete.isEqual_settled (complete : Complete engine) (left : t.Exact) (right : u.Exact)
    (ofT : engine.settled t = .done s) (ofU : engine.settled u = .done v) :
    Equal engine t u ↔ Equal engine s v := by
  have normalS := complete.settled_normal left ofT
  have normalV := complete.settled_normal right ofU
  have equalT := complete.isEqual_own_settled left ofT
  have equalU := complete.isEqual_own_settled right ofU
  constructor
  · intro equal
    exact complete.chain normalS.exact left right normalV.exact
      (complete.symm left normalS.exact equalT) equal equalU
  · intro equal
    exact complete.chain left normalS.exact normalV.exact right equalT equal
      (complete.symm right normalV.exact equalU)

theorem Recasts.equal_remade (recasts : Recasts .remade engine) :
    Equal engine x.remade y.remade ↔ Equal engine x y :=
  iff_of_eq (congrArg (· = done true) (recasts.isEqual x y))

theorem Normal.remade (recasts : Recasts .remade engine) (normal : Normal engine x) :
    Normal engine x.remade := by
  refine ⟨(exact_remade x).mpr normal.exact, normal.flat.recast, ?_⟩
  exact (recasts.reduce x).trans (congrArg _ normal.fixed)

theorem Complete.isEqual_iff_reordered (complete : Complete engine) (recasts : Recasts .remade engine)
    (left : t.Exact) (right : u.Exact) (ofT : engine.settled t = .done s)
    (ofU : engine.settled u = .done v) : Equal engine t u ↔ s.remade.Reordered v.remade := by
  have normalS := (complete.settled_normal left ofT).remade recasts
  have normalV := (complete.settled_normal right ofU).remade recasts
  rw [complete.isEqual_settled left right ofT ofU, ← recasts.equal_remade]
  exact normalS.isEqual_iff complete normalV (canonical_remade s) (canonical_remade v)

-- What is in canonical form settles in canonical form.
theorem Recasts.settled_eq (recasts : Recasts .remade engine) (canonical : t.Canonical)
    (settled : engine.settled t = .done s) : s.remade = s := by
  have again : engine.settled t.remade = .done s.remade :=
    (recasts.settled t).trans (congrArg _ settled)
  rw [canonical.remade_eq, settled] at again
  exact (done.inj again).symm

-- Under the standard weights equality holds exactly of the trees that settle to one tree up to the
-- order of operands and the form of numbers, and only the order counts where all numbers are in
-- canonical form. Two orders of one tree are equal if they are linear, or both their own
-- reductions.
theorem isEqual_iff_settled_reordered {config : Config} (standard : config.Standard)
    (left : t.Exact) (right : u.Exact) :
    ∃ s v equal, Answers config (·.settled t) s ∧ Answers config (·.settled u) v ∧
      Answers config (·.isEqual t u) equal ∧ (equal = true ↔ s.remade.Reordered v.remade) ∧
      (t.Canonical → u.Canonical → (equal = true ↔ s.Reordered v)) ∧
      (t.Reordered u → (Answers config (·.reduce t) t ∧ Answers config (·.reduce u) u) ∨
        t.remade.Linear → equal = true) := by
  have complete := unbounded_complete standard
  have recasts := unbounded_remade config
  obtain ⟨s, ofT⟩ := complete.settledFinishes left
  obtain ⟨v, ofU⟩ := complete.settledFinishes right
  obtain ⟨equal, ran⟩ := complete.compares left right
  have decides : equal = true ↔ s.remade.Reordered v.remade := by
    rw [← complete.isEqual_iff_reordered recasts left right ofT ofU, Equal, ran, done.injEq]
  refine ⟨s, v, equal, answers_settled.mpr ofT, answers_settled.mpr ofU, answers_isEqual.mpr ran,
    decides, ?_, ?_⟩
  · intro canonicalT canonicalU
    rw [decides, recasts.settled_eq canonicalT ofT, recasts.settled_eq canonicalU ofU]
  rintro reordered (⟨fixedT, fixedU⟩ | linear)
  · have fixedT := answers_reduce.mp fixedT
    have fixedU := answers_reduce.mp fixedU
    have normalT : Normal (unbounded config) t := ⟨left, complete.flat fixedT, fixedT⟩
    have normalU : Normal (unbounded config) u := ⟨right, complete.flat fixedU, fixedU⟩
    exact done.inj (ran.symm.trans (normalT.equal_of_reordered complete normalU reordered))
  · -- of linear trees only the value matters, and that does not depend on the order
    have remade : t.remade.Reordered u.remade := reordered.recast
    have same := complete.isEqual_of_values (fun _ => unbounded_sound config) linear
      (linear.reordered remade) fun rho => (remade.value_eq rho).symm
    exact done.inj (ran.symm.trans (recasts.equal_remade.mp same))

-- The products (x + y) * z and z * (y + x) are their own reductions, and so they are equal; the sums
-- x + y + x and y + x + x are linear.
theorem isEqual_iff_settled_reordered_of_swapped :
    Answers {} (·.isEqual (product [sum [symbol "x", symbol "y"], symbol "z"])
        (product [symbol "z", sum [symbol "y", symbol "x"]])) true ∧
      Answers {} (·.isEqual (sum [symbol "x", symbol "y", symbol "x"])
        (sum [symbol "y", symbol "x", symbol "x"])) true := by
  have standard : ({} : Config).Standard := by decide
  constructor
  · obtain ⟨_, _, equal, _, _, answers, _, _, kept⟩ := isEqual_iff_settled_reordered standard
      (t := product [sum [symbol "x", symbol "y"], symbol "z"])
      (u := product [symbol "z", sum [symbol "y", symbol "x"]]) (by decide) (by decide)
    have left : (within {} 8).reduce (product [sum [symbol "x", symbol "y"], symbol "z"]) =
        .done (product [sum [symbol "x", symbol "y"], symbol "z"]) := by cbv
    have right : (within {} 8).reduce (product [symbol "z", sum [symbol "y", symbol "x"]]) =
        .done (product [symbol "z", sum [symbol "y", symbol "x"]]) := by cbv
    have inner : (sum [symbol "x", symbol "y"]).Reordered (sum [symbol "y", symbol "x"]) :=
      .of_perm (.swap _ _ _)
    obtain rfl := kept (.nary (.cons inner (.cons .symbol .nil)) (.swap _ _ _))
      (.inl ⟨.of_run (fun below => below.reduce _) left, .of_run (fun below => below.reduce _) right⟩)
    exact answers
  · obtain ⟨_, _, equal, _, _, answers, _, _, kept⟩ := isEqual_iff_settled_reordered standard
      (t := sum [symbol "x", symbol "y", symbol "x"])
      (u := sum [symbol "y", symbol "x", symbol "x"]) (by decide) (by decide)
    obtain rfl := kept (.of_perm (.swap _ _ _)) (.inr (by decide))
    exact answers

-- The sum (x + 2) * y + (x + 2) * y * x is its own reduction: taking out the common (x + 2) * y leaves
-- 1 + x. With y before x + 2 in its first term the search for common factors passes x + 2 by; with y
-- alone taken out, x + 2 + (x + 2) * x is left, and in that the terms merge.
theorem isEqual_depends_on_order : ¬ ∀ t u : Expr, t.WellFormed → t.Exact → t.Reordered u →
    Answers {} (·.isEqual t u) true := by
  intro always
  have swapped : (product [sum [symbol "x", two], symbol "y"]).Reordered
      (product [symbol "y", sum [symbol "x", two]]) := .of_perm (.swap _ _ _)
  have reordered : (sum [product [sum [symbol "x", two], symbol "y"],
      product [sum [symbol "x", two], symbol "y", symbol "x"]]).Reordered
      (sum [product [symbol "y", sum [symbol "x", two]],
        product [sum [symbol "x", two], symbol "y", symbol "x"]]) :=
    .nary (.cons swapped (.cons (.refl _) .nil)) (.refl _)
  have differ : (within {} 20).isEqual
      (sum [product [sum [symbol "x", two], symbol "y"],
        product [sum [symbol "x", two], symbol "y", symbol "x"]])
      (sum [product [symbol "y", sum [symbol "x", two]],
        product [sum [symbol "x", two], symbol "y", symbol "x"]]) = .done false := by cbv
  have equal := always _ _ (by decide) (by decide) reordered
  exact Bool.noConfusion (equal.unique (.of_run (fun below => below.isEqual _ _) differ))

end Engine
end SymbolicArith
