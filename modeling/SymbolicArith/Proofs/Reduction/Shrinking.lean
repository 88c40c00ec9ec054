import SymbolicArith.Proofs.Reduction.Complete

open SymbolicArith.Expr Relation

-- Under the standard weights a reduction of a flat exact tree either leaves the tree as it is or
-- makes it lighter. A pass accepts a merge as soon as it is lighter than the plain node of the two,
-- so one that saves the node alone would change a tree without making it lighter. There is none:
-- operands that are their own reductions save more than the node whenever they merge.
namespace SymbolicArith

namespace Engine

variable {engine : Engine Outcome} {op : Nary} {x y e r : Expr} {es part : List Expr} {bound : Nat}

-- The statement for trees, and for two operands that merge, below a bound on their mass.
structure Shrinks (engine : Engine Outcome) (bound : Nat) : Prop where
  reduce : ∀ {e r}, e.Exact → e.Flat → e.mass < bound → engine.reduce e = .done r →
    r = e ∨ r.mass < e.mass
  combine : ∀ {op : Nary} {x y r}, Normal engine x → Normal engine y → x.kind ≠ op.kind →
    y.kind ≠ op.kind → x.mass + y.mass < bound → engine.combine (.nary op) x y = .done r →
      r.mass ≤ x.mass + y.mass → r.mass < x.mass + y.mass

abbrev Refused (engine : Engine Outcome) (op : Nary) (es : List Expr) : Prop :=
  es.Pairwise fun x y => engine.merge (.nary op) x y = .done none

-- A reduction of normal operands is a pass over them as they are.
theorem Normal.passed (complete : Complete engine) (normal : ∀ e ∈ es, Normal engine e)
    (run : engine.reduce (nary op es) = .done r) :
    ∃ rest, Passed engine (.nary op) es rest ∧ r = op.join rest := by
  cases reduceStep_reduced (complete.reduceStep run) with
  | terminal terminal => cases terminal
  | nary below pass =>
    have same : List.Forall₂ (fun e r => engine.reduce e = .done r) es es :=
      List.forall₂_same.mpr fun e member => (normal e member).fixed
    rw [← Outcome.mapM_eq_done] at below same
    rw [same] at below
    cases Outcome.done.inj below
    exact ⟨_, pass, rfl⟩

-- Some of the operands of a refused list, in their order, make up a normal node.
theorem Normal.sublist (complete : Complete engine) (normal : ∀ e ∈ es, Normal engine e)
    (others : ∀ e ∈ es, e.kind ≠ op.kind) (refused : Refused engine op es)
    (order : part.Sublist es) : Normal engine (op.join part) := by
  have normal' : ∀ e ∈ part, Normal engine e := by
    intro e member
    exact normal e (order.subset member)
  have others' : ∀ e ∈ part, e.kind ≠ op.kind := by
    intro e member
    exact others e (order.subset member)
  rw [Nary.join, flatMap_spliced_of_kind_ne others']
  apply Nary.collect_induct (Normal.ofInt complete _) normal'
  intro long
  have exact : (nary op part).Exact := exact_nary.mpr fun e member => (normal' e member).exact
  have flat : (nary op part).Flat :=
    flat_nary.mpr ⟨⟨long, others'⟩, fun e member => (normal' e member).flat⟩
  refine ⟨exact, flat, ?_⟩
  obtain ⟨r, ran⟩ := complete.reduces exact
  obtain ⟨rest, pass, rfl⟩ := Normal.passed complete normal' ran
  cases pass with
  | refused => rw [ran, Nary.join_of_kind_ne long others']
  | merged first => exact absurd (refused.sublist order) first.not_refused

theorem Normal.power_operands (complete : Complete engine) (normal : Normal engine (power x y)) :
    (Normal engine x ∧ Normal engine y) ∧ engine.merge .power x y = .done none := by
  obtain ⟨exactX, exactY⟩ := exact_power.mp normal.exact
  obtain ⟨flatX, flatY⟩ := flat_power.mp normal.flat
  obtain ⟨r, same, step⟩ : ∃ r, r = power x y ∧ Reduced engine (power x y) r :=
    ⟨_, rfl, reduceStep_reduced (complete.reduceStep normal.fixed)⟩
  cases step with
  | terminal terminal => cases terminal
  | power ofBase ofExponent refused =>
    cases same
    exact ⟨⟨⟨exactX, flatX, ofBase⟩, ⟨exactY, flatY, ofExponent⟩⟩, refused⟩
  | merged ofBase ofExponent accepted =>
    have base := complete.light ofBase
    have exponent := complete.light ofExponent
    have lighter := merge_mass_lt complete.standard accepted
    simp only [same, Operator.plain, mass_power] at lighter
    omega

-- Two normal terms, neither of them a sum, whose sum gets lighter have merged.
theorem pair_merged (complete : Complete engine) (left : Normal engine x) (right : Normal engine y)
    (otherX : x.kind ≠ .sum) (otherY : y.kind ≠ .sum)
    (run : engine.reduce (Nary.sum.join [x, y]) = .done r)
    (lighter : r.mass < (Nary.sum.join [x, y]).mass) :
    ∃ merged, engine.merge .sum x y = .done (some merged) ∧ r = Nary.sum.join [merged] := by
  have join : Nary.sum.join [x, y] = sum [x, y] := Nary.sum.join_pair x y otherX otherY
  rw [join] at run
  obtain ⟨rest, pass, rfl⟩ := Normal.passed complete (by simp [left, right]) run
  cases pass with
  | refused => exact absurd lighter (Nat.lt_irrefl _)
  | merged first after =>
    obtain ⟨merged, accepted, rfl⟩ := first.of_pair
    obtain rfl := pass_singleton after
    exact ⟨merged, accepted, rfl⟩

-- Where a rule names a number and finds it, its result is lighter than a node of the operands.
theorem combine_tested_lt (member : rule ∈ rules (.nary op) x y)
    (literal : rule.tested.IsNumber rule.literal)
    (run : engine.combine (.nary op) x y = .done r) : r.mass < 1 + (x.mass + y.mass) := by
  have positiveX := mass_pos x
  have positiveY := mass_pos y
  simp only [combine, attempt_eq_done] at run
  rcases run with folded | ⟨_, ruled | ⟨none, _⟩⟩
  · obtain ⟨a, b, value, rfl, rfl, _, rfl⟩ := foldNumbers_some folded
    simp
  · obtain ⟨rule, member, _, rfl⟩ := firstRule_some ruled
    cases op <;> simp only [rules, List.mem_cons, List.not_mem_nil, or_false] at member <;>
      rcases member with rfl | rfl | rfl | rfl <;> simp only [zero, mass_ofInt] <;> omega
  · have tested := firstRule_none none rule member
    obtain ⟨value, number, is⟩ := literal
    simp [number, isLiteral, Literal.equalsInt_eq is] at tested

theorem refused_tested (complete : Complete engine) (otherX : x.kind ≠ op.kind)
    (otherY : y.kind ≠ op.kind) (refused : engine.merge (.nary op) x y = .done none) :
    ∀ rule ∈ rules (.nary op) x y, ¬ rule.tested.IsNumber rule.literal := by
  intro rule member literal
  obtain ⟨merged, combined, heavy⟩ := merge_none refused
  have plain : (Operator.nary op).plain x y = nary op [x, y] := op.join_pair x y otherX otherY
  rw [lighter_iff complete.standard, plain] at heavy
  simp only [mass_nary, masses_cons, masses_nil, Nat.add_zero] at heavy
  exact heavy (combine_tested_lt member literal combined)

theorem Refused.partner (refused : Refused engine op es) (long : 2 ≤ es.length)
    (member : e ∈ es) : ∃ o ∈ es,
      engine.merge (.nary op) e o = .done none ∨ engine.merge (.nary op) o e = .done none := by
  obtain ⟨before, after, rfl⟩ := List.append_of_mem member
  obtain ⟨_, ofMember, ofBefore⟩ := List.pairwise_append.mp refused
  match before, after with
  | b :: before, after => exact ⟨b, by simp, .inr (ofBefore b (by simp) e (by simp))⟩
  | [], a :: after => exact ⟨a, by simp, .inl ((List.pairwise_cons.mp ofMember).1 a (by simp))⟩
  | [], [] => simp at long

-- No operand of a refused list is a number that the rules name.
theorem Refused.ne_literal (complete : Complete engine) (others : ∀ e ∈ es, e.kind ≠ op.kind)
    (refused : Refused engine op es) (long : 2 ≤ es.length) (member : e ∈ es) :
    ¬ e.IsNumber 0 ∧ (op = .product → ¬ e.IsNumber 1) := by
  obtain ⟨o, present, pair⟩ := refused.partner long member
  have self := others e member
  have other := others o present
  rcases pair with after | before
  · have tested := refused_tested complete self other after
    cases op <;> simp_all [rules]
  · have tested := refused_tested complete other self before
    cases op <;> simp_all [rules]

namespace Shrinks

variable (complete : Complete engine) (shrinks : Shrinks engine bound)

include complete shrinks

theorem merges (normal : ∀ e ∈ es, Normal engine e) (others : ∀ e ∈ es, e.kind ≠ op.kind)
    (enough : masses es < bound) (merges : Merges engine (.nary op) es part) :
    masses part < masses es := by
  cases merges with
  | @merge x y merged before between after accepted =>
    have inX : x ∈ before ++ x :: (between ++ y :: after) := by simp
    have inY : y ∈ before ++ x :: (between ++ y :: after) := by simp
    obtain ⟨combined, lighter⟩ := merge_some accepted
    rw [lighter_iff complete.standard] at lighter
    have plain := (Operator.nary op).mass_plain_le x y
    simp only [masses_append, masses_cons] at enough ⊢
    have saved := shrinks.combine (normal x inX) (normal y inY) (others x inX) (others y inY)
      (by omega) combined (by omega)
    omega

theorem operands (exact : ∀ e ∈ es, e.Exact) (flat : ∀ e ∈ es, e.Flat)
    (enough : masses es < bound)
    (below : List.Forall₂ (fun e r => engine.reduce e = .done r) es part) :
    part = es ∨ masses part < masses es := by
  induction below with
  | nil => exact .inl rfl
  | @cons e r es part ran below ih =>
    simp only [masses_cons] at enough ⊢
    have light := complete.light ran
    have first := shrinks.reduce (exact e (by simp)) (flat e (by simp)) (by omega) ran
    have rest := ih (fun o member => exact o (by simp [member]))
      (fun o member => flat o (by simp [member])) (by omega)
    rcases first with rfl | lighter
    · rcases rest with rfl | lighter'
      · exact .inl rfl
      · exact .inr (by omega)
    · have others := complete.tame.neverGrows.operands below
      exact .inr (by omega)

-- A sum or product that does not get lighter has normal operands, and none of them merge.
theorem reduce_nary (exact : (nary op es).Exact) (flat : (nary op es).Flat)
    (enough : masses es < bound) (run : engine.reduce (nary op es) = .done r) :
    (r = nary op es ∧ (∀ e ∈ es, Normal engine e) ∧ Refused engine op es) ∨
      r.mass < (nary op es).mass := by
  have exact' := exact_nary.mp exact
  obtain ⟨⟨long, others⟩, flat'⟩ := flat_nary.mp flat
  rw [mass_nary]
  cases reduceStep_reduced (complete.reduceStep run) with
  | terminal terminal => cases terminal
  | @nary _ _ reduced rest below pass =>
    have joined := op.mass_join_le rest
    rcases shrinks.operands complete exact' flat' enough below with rfl | lighter
    · have fixed := List.forall₂_same.mp below
      have normal : ∀ e ∈ reduced, Normal engine e := by
        intro e member
        exact ⟨exact' e member, flat' e member, fixed e member⟩
      cases pass with
      | refused refused => exact .inl ⟨Nary.join_of_kind_ne long others, normal, refused⟩
      | merged first after =>
        have saved := shrinks.merges complete normal others enough first
        have light := pass_masses_le complete.standard after
        exact .inr (by omega)
    · have light := pass_masses_le complete.standard pass.merges
      exact .inr (by omega)

theorem nary_operands (normal : Normal engine (nary op es)) (enough : masses es < bound) :
    (∀ e ∈ es, Normal engine e) ∧ Refused engine op es := by
  rcases shrinks.reduce_nary complete normal.exact normal.flat enough normal.fixed with same | lighter
  · exact same.2
  · exact absurd lighter (Nat.lt_irrefl _)

theorem factor_ne_one (normal : Normal engine (product es)) (enough : masses es < bound)
    (member : e ∈ es) :
    ¬ (engine.isEqual e .one = .done true ∨ engine.isEqual .one e = .done true) := by
  obtain ⟨operands, refused⟩ := shrinks.nary_operands complete normal enough
  obtain ⟨⟨long, others⟩, _⟩ := flat_nary.mp normal.flat
  intro equal
  have one : e.IsNumber 1 := (operands e member).isNumber complete equal
  exact (refused.ne_literal complete others long member).2 rfl one

-- Two normal terms whose sum gets lighter save its node and more.
theorem pair (left : Normal engine x) (right : Normal engine y)
    (enough : x.mass + y.mass < bound) (run : engine.reduce (Nary.sum.join [x, y]) = .done r)
    (lighter : r.mass < (Nary.sum.join [x, y]).mass) : r.mass < x.mass + y.mass := by
  by_cases own : x.kind = .sum ∨ y.kind = .sum
  · -- the node of a spliced sum is saved before any reduction
    have spliced := Nary.sum.mass_join_pair_own own
    omega
  · obtain ⟨otherX, otherY⟩ := not_or.mp own
    obtain ⟨merged, accepted, rfl⟩ := pair_merged complete left right otherX otherY run lighter
    have light := Nary.sum.mass_join_singleton_le merged
    obtain ⟨combined, saved⟩ := merge_some accepted
    rw [lighter_iff complete.standard] at saved
    have plain := Operator.sum.mass_plain_le x y
    have strict := shrinks.combine left right otherX otherY enough combined (by omega)
    omega

-- Nothing is shared by a normal product and 1, so they merge only if the product is 0.
theorem product_and_one (normal : Normal engine (product es)) (enough : masses es < bound)
    (pair : (x = product es ∧ y = .one) ∨ (x = .one ∧ y = product es))
    (run : engine.combine .sum x y = .done r) (accepted : r.mass ≤ x.mass + y.mass) :
    r.mass ≤ 1 := by
  cases combine_combined run with
  | folded => simp
  | ruled member applies =>
    simp only [rules, List.mem_cons, List.not_mem_nil, or_false] at member
    rcases pair with ⟨rfl, rfl⟩ | ⟨rfl, rfl⟩
    · rcases member with rfl | rfl
      · simp [one]
      · cases applies with
        | number equal => simp [Literal.equalsInt_eq (Literal.rational?_whole 1)] at equal
        | composite composite => cases composite
    · rcases member with rfl | rfl
      · cases applies with
        | number equal => simp [Literal.equalsInt_eq (Literal.rational?_whole 1)] at equal
        | composite composite => cases composite
      · simp [one]
  | factored shared =>
    cases shared with
    | doubled equal otherX otherY =>
      rcases pair with ⟨rfl, rfl⟩ | ⟨rfl, rfl⟩
      · exact absurd rfl otherX
      · exact absurd rfl otherY
    | common _ shared =>
      obtain ⟨found, _, taken, splits, some, _⟩ := factorSum_some shared
      obtain ⟨a, inCommon⟩ := List.exists_mem_of_ne_nil _ some
      obtain ⟨b, inTaken, equal⟩ := pair_of_mem_left splits.paired inCommon
      have inX := splits.left.subset (List.mem_append_left _ inCommon)
      have inY := splits.right.subset (List.mem_append_left _ inTaken)
      have other : Expr.one.kind ≠ .product := ofInt_kind_ne 1 .product
      rcases pair with ⟨rfl, rfl⟩ | ⟨rfl, rfl⟩
      · rw [operands_view_own] at inX
        rw [operands_view_other other] at inY
        obtain rfl : b = .one := by simpa using inY
        exact absurd (.inl equal) (shrinks.factor_ne_one complete normal enough inX)
      · rw [operands_view_own] at inY
        rw [operands_view_other other] at inX
        obtain rfl : a = .one := by simpa using inX
        exact absurd (.inr equal) (shrinks.factor_ne_one complete normal enough inY)
  | plain =>
    have join : Operator.sum.plain x y = sum [x, y] := by
      rcases pair with ⟨rfl, rfl⟩ | ⟨rfl, rfl⟩
      · exact Nary.sum.join_pair _ _ product_kind_ne_sum (ofInt_kind_ne 1 .sum)
      · exact Nary.sum.join_pair _ _ (ofInt_kind_ne 1 .sum) product_kind_ne_sum
    rw [join] at accepted
    simp only [mass_nary, masses_cons, masses_nil] at accepted
    omega

-- What is left of a normal product gains nothing from a 1 beside it.
theorem rest_and_one (normal : Normal engine (product es)) (enough : masses es + 1 < bound)
    (order : part.Sublist es) (some : part ≠ [])
    (pair : (x = Nary.product.join part ∧ y = .one) ∨ (x = .one ∧ y = Nary.product.join part))
    (run : engine.reduce (Nary.sum.join [x, y]) = .done r)
    (lighter : r.mass < (Nary.sum.join [x, y]).mass) : r.mass ≤ masses part := by
  obtain ⟨operands, refused⟩ := shrinks.nary_operands complete normal (by omega)
  obtain ⟨⟨long, others⟩, _⟩ := flat_nary.mp normal.flat
  have rest := Normal.sublist complete operands others refused order
  have one : Normal engine Expr.one := Normal.ofInt complete 1
  have light := masses_sublist_le order
  have others' : ∀ e ∈ part, e.kind ≠ Nary.product.kind := by
    intro e member
    exact others e (order.subset member)
  have both : Normal engine x ∧ Normal engine y ∧
      x.mass + y.mass = (Nary.product.join part).mass + 1 := by
    rcases pair with ⟨rfl, rfl⟩ | ⟨rfl, rfl⟩
    · exact ⟨rest, one, rfl⟩
    · exact ⟨one, rest, Nat.add_comm _ _⟩
  obtain ⟨left, right, total⟩ := both
  match part with
  | [] => exact absurd rfl some
  | [d] =>
    have alone := Nary.product.mass_join_singleton_le d
    simp only [masses_cons, masses_nil] at light ⊢
    have saved := shrinks.pair complete left right (by omega) run lighter
    omega
  | a :: b :: part =>
    rw [Nary.join_of_kind_ne (by simp) others'] at rest pair
    have others : x.kind ≠ .sum ∧ y.kind ≠ .sum := by
      rcases pair with ⟨rfl, rfl⟩ | ⟨rfl, rfl⟩
      · exact ⟨product_kind_ne_sum, ofInt_kind_ne 1 .sum⟩
      · exact ⟨ofInt_kind_ne 1 .sum, product_kind_ne_sum⟩
    obtain ⟨otherX, otherY⟩ := others
    obtain ⟨merged, accepted, rfl⟩ := pair_merged complete left right otherX otherY run lighter
    have small := Nary.sum.mass_join_singleton_le merged
    obtain ⟨combined, saved⟩ := merge_some accepted
    rw [lighter_iff complete.standard] at saved
    have plain := Operator.sum.mass_plain_le x y
    have tiny := shrinks.product_and_one complete rest (by omega) pair combined (by omega)
    have positive := mass_pos a
    simp only [masses_cons]
    omega

-- The rest of a normal term beside what it shares, as a product, is normal.
theorem rest_normal {common rest : List Expr} (normal : Normal engine x) (enough : x.mass ≤ bound)
    (some : common ≠ []) (order : rest.Sublist (viewedAs .product x).operands)
    (perm : (common ++ rest).Perm (viewedAs .product x).operands) :
    Normal engine (Nary.product.join rest) := by
  by_cases own : x.kind = .product
  · obtain ⟨es, rfl⟩ := eq_nary_of_kind own
    rw [operands_view_own] at order
    simp only [mass_nary] at enough
    obtain ⟨operands, refused⟩ := shrinks.nary_operands complete normal (by omega)
    exact Normal.sublist complete operands (flat_nary.mp normal.flat).1.2 refused order
  · have one : Normal engine Expr.one := Normal.ofInt complete 1
    have length := perm.length_eq
    have long := List.length_pos_iff.mpr some
    rw [operands_view_other own] at order length
    simp only [List.length_append, List.length_cons, List.length_nil] at length
    have normal' : ∀ e ∈ [x, Expr.one], Normal engine e := by simp [normal, one]
    have others : ∀ e ∈ [x, Expr.one], e.kind ≠ Nary.product.kind := by
      simpa using ⟨own, ofInt_kind_ne 1 .product⟩
    match rest with
    | [] => exact one
    | [d] =>
      have member : d ∈ [x, Expr.one] := order.subset (by simp)
      rw [Nary.join, flatMap_spliced_of_kind_ne fun e single => others e (order.subset single)]
      exact normal' d member
    | _ :: _ :: _ =>
      simp only [List.length_cons] at length
      omega

section

variable {found : Split} {taken : List Expr} {reduced : Expr} (some : found.common ≠ [])
  (ofRests : engine.reduce found.rests = .done reduced)
  (lighter : reduced.mass < found.rests.mass)

include some ofRests lighter

-- A product and a term viewed as a product share the term itself, and a 1 is left of the view.
theorem shared_by_left (normal : Normal engine (product es)) (other : y.kind ≠ .product)
    (enough : masses es + 1 < bound)
    (splits : Splits engine es (viewedAs .product y).operands found taken) :
    reduced.mass + masses found.common ≤ masses es := by
  have length := splits.paired.length_eq
  have long := List.length_pos_iff.mpr some
  -- a 1 that is taken out of the view would be equal to a factor
  have noOne : Expr.one ∉ taken := by
    intro member
    obtain ⟨a, inCommon, equal⟩ := pair_of_mem_right splits.paired member
    have inX := splits.left.subset (List.mem_append_left _ inCommon)
    exact shrinks.factor_ne_one complete normal (by omega) inX (.inl equal)
  have someTaken : taken ≠ [] := List.length_pos_iff.mp (by omega)
  obtain ⟨rfl, restY⟩ := view_other_parts other someTaken noOne splits.right
  have parts := splits.left.length_eq
  have two := (flat_nary.mp normal.flat).1.1
  simp only [List.length_append, List.length_cons, List.length_nil] at parts length
  have someX : found.restX ≠ [] := List.length_pos_iff.mp (by omega)
  have one : Nary.product.join found.restY = .one := by rw [restY]; rfl
  have small := shrinks.rest_and_one complete normal enough splits.restXOrder someX
    (.inl ⟨rfl, one⟩) ofRests lighter
  have total := splits.massesX
  omega

theorem shared_by_right (normal : Normal engine (product es)) (other : x.kind ≠ .product)
    (enough : masses es + 1 < bound)
    (splits : Splits engine (viewedAs .product x).operands es found taken) :
    reduced.mass + masses found.common < masses es + x.mass := by
  have length := splits.paired.length_eq
  have noOne : Expr.one ∉ found.common := by
    intro member
    obtain ⟨b, inTaken, equal⟩ := pair_of_mem_left splits.paired member
    have inY := splits.right.subset (List.mem_append_left _ inTaken)
    exact shrinks.factor_ne_one complete normal (by omega) inY (.inr equal)
  obtain ⟨common, restX⟩ := view_other_parts other some noOne splits.left
  have parts := splits.right.length_eq
  have two := (flat_nary.mp normal.flat).1.1
  rw [common] at length ⊢
  simp only [List.length_append, List.length_cons, List.length_nil] at parts length
  have someY : found.restY ≠ [] := List.length_pos_iff.mp (by omega)
  have one : Nary.product.join found.restX = .one := by rw [restX]; rfl
  have small := shrinks.rest_and_one complete normal enough splits.restYOrder someY
    (.inr ⟨one, rfl⟩) ofRests lighter
  have total := splits.massesY
  have positive := length_le_masses taken
  simp only [masses_cons, masses_nil]
  omega

end

-- What two normal terms share is counted once in the factored form, and the rests save more than
-- the node of their sum.
theorem common (left : Normal engine x) (right : Normal engine y)
    (enough : x.mass + y.mass ≤ bound) (own : x.kind = .product ∨ y.kind = .product)
    (shared : engine.factorSum (viewedAs .product x) (viewedAs .product y) = .done (some r)) :
    r.mass < x.mass + y.mass := by
  obtain ⟨found, reduced, taken, splits, some, ofRests, lighter, ofFactored⟩ := factorSum_some shared
  rw [lighter_iff complete.standard] at lighter
  have positiveX := mass_pos x
  have positiveY := mass_pos y
  have light := complete.light ofFactored
  have factored := factored_mass_le reduced some
  by_cases both : x.kind = .product ∧ y.kind = .product
  · -- both rests are normal, so that their sum saves its node twice
    have length := splits.paired.length_eq
    have long := List.length_pos_iff.mpr some
    have someTaken : taken ≠ [] := List.length_pos_iff.mp (by omega)
    have restX :=
      shrinks.rest_normal complete left (by omega) some splits.restXOrder splits.left
    have restY :=
      shrinks.rest_normal complete right (by omega) someTaken splits.restYOrder splits.right
    have bounds := splits.mass_le some
    have below := (splits.mass_bounds own some).1
    have saved := shrinks.pair complete restX restY (by omega) ofRests lighter
    have positive := length_le_masses taken
    simp only [both, if_true] at bounds
    omega
  · by_cases ownX : x.kind = .product
    · have other : y.kind ≠ .product := fun ownY => both ⟨ownX, ownY⟩
      obtain ⟨es, rfl⟩ := eq_nary_of_kind ownX
      rw [operands_view_own] at splits
      rw [mass_nary] at enough ⊢
      have saved := shrinks.shared_by_left complete some ofRests lighter left other (by omega) splits
      omega
    · obtain ⟨es, rfl⟩ := eq_nary_of_kind (own.resolve_left ownX)
      rw [operands_view_own] at splits
      rw [mass_nary] at enough ⊢
      have saved := shrinks.shared_by_right complete some ofRests lighter right ownX (by omega) splits
      omega

-- Of two powers of one base the node and the other base are saved; a base without an exponent
-- counts as one with the exponent 1.
theorem sameBase (left : Normal engine x) (right : Normal engine y)
    (enough : x.mass + y.mass ≤ bound) (own : x.kind = .power ∨ y.kind = .power)
    (viewX : viewedAs .power x = .power base exponent)
    (viewY : viewedAs .power y = .power base' exponent')
    (shared : engine.mergePowers base exponent base' exponent' = .done (some r)) :
    r.mass < x.mass + y.mass := by
  obtain ⟨_, reduced, ofExponents, lighter, rfl⟩ := mergePowers_some shared
  rw [lighter_iff complete.standard] at lighter
  have one : Normal engine Expr.one := Normal.ofInt complete 1
  have positive := mass_pos base
  have positive' := mass_pos base'
  rcases viewedAs_power_cases viewX with rfl | ⟨otherX, rfl, rfl⟩
  · have ofX := (Normal.power_operands complete left).1.2
    rcases viewedAs_power_cases viewY with rfl | ⟨otherY, rfl, rfl⟩
    · have ofY := (Normal.power_operands complete right).1.2
      simp only [mass_power] at enough ⊢
      have saved := shrinks.pair complete ofX ofY (by omega) ofExponents lighter
      omega
    · have unit : Expr.one.mass = 1 := mass_ofInt 1
      simp only [mass_power] at enough ⊢
      have saved := shrinks.pair complete ofX one (by omega) ofExponents lighter
      omega
  · rcases viewedAs_power_cases viewY with rfl | ⟨otherY, _⟩
    · have unit : Expr.one.mass = 1 := mass_ofInt 1
      have ofY := (Normal.power_operands complete right).1.2
      simp only [mass_power] at enough ⊢
      have saved := shrinks.pair complete one ofY (by omega) ofExponents lighter
      omega
    · exact absurd own (by simp [otherX, otherY])

theorem factored (left : Normal engine x) (right : Normal engine y)
    (enough : x.mass + y.mass ≤ bound) (accepted : r.mass ≤ x.mass + y.mass)
    (shared : Factored engine (.nary op) x y r) : r.mass < x.mass + y.mass := by
  have noPair := right.flat.mass_ne_two
  cases shared with
  | doubled equal otherX otherY =>
    rw [Nary.product.join_pair .two x (ofInt_kind_ne 2 .product) otherX] at accepted ⊢
    simp only [two, mass_nary, masses_cons, masses_nil, mass_ofInt] at accepted ⊢
    omega
  | squared equal otherX otherY =>
    simp only [two, mass_power, mass_ofInt] at accepted ⊢
    omega
  | common own shared => exact shrinks.common complete left right enough own shared
  | sameBase own viewX viewY shared =>
    exact shrinks.sameBase complete left right enough own viewX viewY shared

theorem combined (left : Normal engine x) (right : Normal engine y) (otherX : x.kind ≠ op.kind)
    (otherY : y.kind ≠ op.kind) (enough : x.mass + y.mass ≤ bound)
    (accepted : r.mass ≤ x.mass + y.mass) (combined : Combined engine (.nary op) x y r) :
    r.mass < x.mass + y.mass := by
  have positiveX := mass_pos x
  have positiveY := mass_pos y
  cases combined with
  | folded => simp
  | ruled member =>
    cases op <;> simp only [rules, List.mem_cons, List.not_mem_nil, or_false] at member <;>
      rcases member with rfl | rfl | rfl | rfl <;> simp only [zero, mass_ofInt] <;> omega
  | factored shared => exact shrinks.factored complete left right enough accepted shared
  | plain =>
    rw [Operator.plain, op.join_pair x y otherX otherY] at accepted
    simp only [mass_nary, masses_cons, masses_nil] at accepted
    omega

theorem succ : Shrinks engine (bound + 1) where
  reduce {e r} exact flat enough run := by
    cases e with
    | number | symbol =>
      cases reduceStep_reduced (complete.reduceStep run)
      exact .inl rfl
    | nary op es =>
      rw [mass_nary] at enough
      rcases shrinks.reduce_nary complete exact flat (by omega) run with same | lighter
      · exact .inl same.1
      · exact .inr lighter
    | power base exponent =>
      obtain ⟨exactBase, exactExponent⟩ := exact_power.mp exact
      obtain ⟨flatBase, flatExponent⟩ := flat_power.mp flat
      simp only [mass_power] at enough ⊢
      cases reduceStep_reduced (complete.reduceStep run) with
      | terminal terminal => cases terminal
      | power ofBase ofExponent =>
        have lightBase := complete.light ofBase
        have lightExponent := complete.light ofExponent
        rcases shrinks.reduce exactBase flatBase (by omega) ofBase with rfl | lighter
        · rcases shrinks.reduce exactExponent flatExponent (by omega) ofExponent with rfl | lighter
          · exact .inl rfl
          · exact .inr (by simp only [mass_power]; omega)
        · exact .inr (by simp only [mass_power]; omega)
      | merged ofBase ofExponent accepted =>
        have lightBase := complete.light ofBase
        have lightExponent := complete.light ofExponent
        have lighter := merge_mass_lt complete.standard accepted
        simp only [Operator.plain, mass_power] at lighter
        exact .inr (by omega)
  combine left right otherX otherY enough run accepted :=
    shrinks.combined complete left right otherX otherY (by omega) accepted (combine_combined run)

end Shrinks

theorem Complete.shrinks (complete : Complete engine) (bound : Nat) : Shrinks engine bound := by
  induction bound with
  | zero => exact ⟨fun _ _ enough => absurd enough (Nat.not_lt_zero _),
      fun _ _ _ _ enough => absurd enough (Nat.not_lt_zero _)⟩
  | succ bound ih => exact ih.succ complete

-- A reduction that changes a flat exact tree makes it lighter.
theorem Complete.reduce_lighter (complete : Complete engine) (exact : e.Exact) (flat : e.Flat)
    (run : engine.reduce e = .done r) : r = e ∨ r.mass < e.mass :=
  (complete.shrinks (e.mass + 1)).reduce exact flat (Nat.lt_succ_self _) run

-- The operands of a sum or product that is its own reduction are so too, and none of them merge.
theorem Normal.nary_operands (complete : Complete engine) (normal : Normal engine (nary op es)) :
    (∀ e ∈ es, Normal engine e) ∧ Refused engine op es :=
  (complete.shrinks (masses es + 1)).nary_operands complete normal (Nat.lt_succ_self _)

end Engine
end SymbolicArith
