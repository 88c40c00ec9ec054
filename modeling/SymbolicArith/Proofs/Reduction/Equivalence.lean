import SymbolicArith.Proofs.Reduction.Complete

open SymbolicArith.Expr SymbolicArith.Outcome

-- Equality is an equivalence relation under the standard weights. Settled trees are compared by
-- pairing off their operands, each with the first equal one that is left; the operands are lighter
-- than the trees, and on lighter trees equality is symmetric and transitive already. Then it does
-- not matter which of several equal operands is taken: a pairing is found whenever there is one.
namespace SymbolicArith

section

variable {α β : Type} {R R' : α → β → Prop} {xs xs' : List α} {ys ys' : List β}

-- The second list can be put in an order in which it goes with the first one by one.
def Paired (R : α → β → Prop) (xs : List α) (ys : List β) : Prop :=
  ∃ zs, List.Forall₂ R xs zs ∧ zs.Perm ys

theorem Paired.perm (paired : Paired R xs ys) (left : xs.Perm xs') (right : ys.Perm ys') :
    Paired R xs' ys' := by
  obtain ⟨zs, pairs, order⟩ := paired
  obtain ⟨zs', pairs', order'⟩ := List.perm_comp_forall₂ left.symm pairs
  exact ⟨zs', pairs', order'.trans (order.trans right)⟩

theorem paired_perm (left : xs.Perm xs') (right : ys.Perm ys') :
    Paired R xs ys ↔ Paired R xs' ys' :=
  ⟨fun paired => paired.perm left right, fun paired => paired.perm left.symm right.symm⟩

-- Whoever is paired with `y` takes `b` instead.
theorem exchange {y b : β} (pairs : List.Forall₂ R xs ys) (member : y ∈ ys)
    (instead : ∀ a ∈ xs, R a y → R a b) :
    ∃ zs, List.Forall₂ R xs zs ∧ (y :: zs).Perm (b :: ys) := by
  induction pairs with
  | nil => cases member
  | @cons a z xs ys pair rest ih =>
    rcases List.mem_cons.mp member with rfl | later
    · exact ⟨b :: ys, .cons (instead a (by simp) pair) rest, .swap b y ys⟩
    · obtain ⟨zs, pairs, order⟩ := ih later fun a present => instead a (by simp [present])
      refine ⟨z :: zs, .cons pair pairs, ?_⟩
      calc (y :: z :: zs).Perm (z :: y :: zs) := .swap z y zs
        _ |>.Perm (z :: b :: ys) := order.cons z
        _ |>.Perm (b :: z :: ys) := .swap b z ys

-- One pair can be taken out first, whichever of the possible ones it is.
theorem Paired.rest {x : α} {y : β} (paired : Paired R (x :: xs) (y :: ys))
    (instead : ∀ a ∈ xs, ∀ b ∈ y :: ys, R x b → R a y → R a b) : Paired R xs ys := by
  obtain ⟨zs, pairs, order⟩ := paired
  obtain ⟨b, zs, pair, rest, rfl⟩ := List.forall₂_cons_left_iff.mp pairs
  have present : b ∈ y :: ys := order.subset (by simp)
  rcases List.mem_cons.mp (order.symm.subset (List.mem_cons_self (a := y))) with rfl | later
  · exact ⟨zs, rest, order.cons_inv⟩
  · obtain ⟨zs', pairs', order'⟩ := exchange rest later fun a member taken =>
      instead a member b present pair taken
    exact ⟨zs', pairs', (order'.trans order).cons_inv⟩

end

namespace Engine

variable {config : Config} {engine : Engine Outcome} {x y z s t : Expr} {xs ys : List Expr}

abbrev Equal (engine : Engine Outcome) (x y : Expr) : Prop := engine.isEqual x y = .done true

-- If equal operands can stand for one another, the pairing that takes the first of them each time
-- succeeds as soon as any pairing does.
theorem pairOff_iff (finishes : ∀ x ∈ xs, ∀ y ∈ ys, (engine.isEqual x y).Finishes)
    (instead : ∀ x ∈ xs, ∀ a ∈ xs, ∀ y ∈ ys, ∀ b ∈ ys, Equal engine x y → Equal engine x b →
      Equal engine a y → Equal engine a b) :
    engine.pairOff xs ys = .done true ↔ Paired (Equal engine) xs ys := by
  refine ⟨pairOff_true, ?_⟩
  intro paired
  induction xs generalizing ys with
  | nil =>
    obtain ⟨zs, pairs, order⟩ := paired
    cases pairs
    simp [pairOff, List.nil_perm.mp order]
  | cons x xs ih =>
    unfold pairOff
    have sought : (engine.seek x [] ys).Finishes := finishes_chained.seek (finishes x (by simp))
    obtain ⟨sought, search⟩ := sought
    cases sought with
    | none =>
      obtain ⟨zs, pairs, order⟩ := paired
      obtain ⟨y, zs, pair, _, rfl⟩ := List.forall₂_cons_left_iff.mp pairs
      have differ := seek_none search y (order.subset (by simp))
      cases differ.symm.trans pair
    | some cursor =>
      have takes : engine.seek x (Cursor.start ys).passed (Cursor.start ys).ahead = _ := search
      obtain ⟨y, equal, out, order⟩ := seek_takes takes
      have inY : y ∈ ys := out.subset (by simp)
      have rest : Paired (Equal engine) xs cursor.all := by
        apply Paired.rest (paired.perm (.refl _) out.symm)
        intro a inA b inB equal' taken
        exact instead x (by simp) a (by simp [inA]) y inY b (out.subset inB) equal equal' taken
      rw [search]
      refine ih ?_ ?_ rest
      · intro a inA b inB
        exact finishes a (by simp [inA]) b (order.subset inB)
      · intro a inA a' inA' b inB b' inB'
        exact instead a (by simp [inA]) a' (by simp [inA']) b (order.subset inB) b'
          (order.subset inB')

theorem Pairs.trans (left : engine.Pairs xs ys) (right : engine.Pairs ys zs)
    (each : ∀ a ∈ xs, ∀ b ∈ ys, ∀ c ∈ zs, Equal engine a b → Equal engine b c → Equal engine a c) :
    engine.Pairs xs zs := by
  induction left generalizing zs with
  | nil => exact right
  | cons pair _ ih =>
    obtain ⟨c, zs, pair', rest, rfl⟩ := List.forall₂_cons_left_iff.mp right
    refine .cons (each _ (by simp) _ (by simp) c (by simp) pair pair') (ih rest ?_)
    intro a inA b inB c inC
    exact each a (by simp [inA]) b (by simp [inB]) c (by simp [inC])

namespace Agree

theorem symm (left : x.Exact) (right : y.Exact)
    (each : ∀ a ∈ x.operands, ∀ b ∈ y.operands, Equal engine a b → Equal engine b a)
    (agree : Agree engine x y) : Agree engine y x := by
  cases agree with
  | number equal =>
    obtain ⟨p, isX⟩ := left.number
    obtain ⟨q, isY⟩ := right.number
    rw [Literal.equals_eq isX isY] at equal
    exact .number (by simpa [Literal.equals_eq isY isX, eq_comm] using equal)
  | symbol => exact .symbol
  | @nary op xs ys zs paired perm =>
    have flipped : engine.Pairs zs xs :=
      (pairs_imp paired fun a inA b inB => each a inA b (perm.subset inB)).flip
    obtain ⟨ws, paired', perm'⟩ := List.perm_comp_forall₂ perm.symm flipped
    exact .nary paired' perm'
  | power bases exponents =>
    exact .power (each _ (by simp [operands]) _ (by simp [operands]) bases)
      (each _ (by simp [operands]) _ (by simp [operands]) exponents)

theorem trans (exactX : x.Exact) (exactY : y.Exact) (exactZ : z.Exact)
    (each : ∀ a ∈ x.operands, ∀ b ∈ y.operands, ∀ c ∈ z.operands,
      Equal engine a b → Equal engine b c → Equal engine a c)
    (left : Agree engine x y) (right : Agree engine y z) : Agree engine x z := by
  cases left with
  | number equal =>
    cases right with
    | number equal' =>
      obtain ⟨p, isX⟩ := exactX.number
      obtain ⟨q, isY⟩ := exactY.number
      obtain ⟨r, isZ⟩ := exactZ.number
      rw [Literal.equals_eq isX isY, decide_eq_true_eq] at equal
      rw [Literal.equals_eq isY isZ, decide_eq_true_eq] at equal'
      exact .number (by simp [Literal.equals_eq isX isZ, equal, equal'])
  | symbol => exact right
  | @nary op xs ys us paired perm =>
    cases right with
    | @nary _ _ zs ws paired' perm' =>
      obtain ⟨vs, through, perm''⟩ := List.perm_comp_forall₂ perm paired'
      have order := perm''.trans perm'
      refine .nary (paired.trans through fun a inA b inB c inC => ?_) order
      exact each a inA b (perm.subset inB) c (order.subset inC)
  | power bases exponents =>
    cases right with
    | power bases' exponents' =>
      exact .power
        (each _ (by simp [operands]) _ (by simp [operands]) _ (by simp [operands]) bases bases')
        (each _ (by simp [operands]) _ (by simp [operands]) _ (by simp [operands]) exponents
          exponents')

theorem compare_true (finishes : ∀ a ∈ x.operands, ∀ b ∈ y.operands, (engine.isEqual a b).Finishes)
    (instead : ∀ a ∈ x.operands, ∀ a' ∈ x.operands, ∀ b ∈ y.operands, ∀ b' ∈ y.operands,
      Equal engine a b → Equal engine a b' → Equal engine a' b → Equal engine a' b')
    (agree : Agree engine x y) : engine.compare x y = .done true := by
  cases agree with
  | number equal => simpa [compare] using equal
  | symbol => simp [compare]
  | nary paired perm =>
    have paired : engine.pairOff _ _ = .done true :=
      (pairOff_iff finishes instead).mpr ⟨_, paired, perm⟩
    simpa [compare, operands] using paired
  | power bases exponents => simp [compare, bases, exponents]

end Agree

abbrev Small (bound : Nat) (e : Expr) : Prop := e.Exact ∧ e.mass < bound

-- Equality is symmetric and transitive on the exact trees below this mass.
structure Laws (engine : Engine Outcome) (bound : Nat) : Prop where
  symm : ∀ {x y}, Small bound x → Small bound y → Equal engine x y → Equal engine y x
  trans : ∀ {x y z}, Small bound x → Small bound y → Small bound z →
    Equal engine x y → Equal engine y z → Equal engine x z

-- If two trees are equal to a third, each can stand for the other.
theorem Laws.instead {bound : Nat} (laws : Laws engine bound) {a a' b b' : Expr}
    (smallA : Small bound a) (smallA' : Small bound a') (smallB : Small bound b)
    (smallB' : Small bound b') (equal : Equal engine a b) (equal' : Equal engine a b')
    (taken : Equal engine a' b) : Equal engine a' b' := by
  have back : Equal engine b a := laws.symm smallA smallB equal
  have through : Equal engine a' a := laws.trans smallA' smallB smallA taken back
  exact laws.trans smallA' smallA smallB' through equal'

namespace Complete

variable {bound : Nat}

theorem settles_small (complete : Complete engine) (small : Small (bound + 1) x) :
    ∃ s, engine.settled x = .done s ∧ s.Exact ∧ ∀ o ∈ s.operands, Small bound o := by
  obtain ⟨s, settled⟩ := complete.settledFinishes small.1
  obtain ⟨exact, light⟩ := (complete.capable 0).settled_kept small.1 settled
  refine ⟨s, settled, exact, ?_⟩
  intro o member
  have lighter := operand_mass_lt member
  have enough := small.2
  exact ⟨exact.operand member, by omega⟩

-- Trees are equal exactly if what they settle to agrees, given the laws for the operands.
theorem isEqual_iff_agree (complete : Complete engine) (laws : Laws engine bound)
    (left : x.Exact) (right : y.Exact) (ofX : engine.settled x = .done s)
    (ofY : engine.settled y = .done t) (smallS : ∀ o ∈ s.operands, Small bound o)
    (smallT : ∀ o ∈ t.operands, Small bound o) : Equal engine x y ↔ Agree engine s t := by
  constructor
  · intro equal
    obtain ⟨s', t', ofX', ofY', agree⟩ := isEqualStep_true (complete.isEqualStep equal)
    cases done.inj (ofX.symm.trans ofX')
    cases done.inj (ofY.symm.trans ofY')
    exact agree
  · intro agree
    have compared : engine.compare s t = .done true := by
      apply agree.compare_true
      · intro a inA b inB
        exact complete.compares (smallS a inA).1 (smallT b inB).1
      · intro a inA a' inA' b inB b' inB'
        exact laws.instead (smallS a inA) (smallS a' inA') (smallT b inB) (smallT b' inB')
    obtain ⟨b, ran⟩ := complete.compares left right
    have step := complete.isEqualStep ran
    simp only [Engine.isEqualStep, ofX, ofY, done_bind, compared, done.injEq] at step
    rw [Equal, ran, step]

theorem laws_succ (complete : Complete engine) (laws : Laws engine bound) :
    Laws engine (bound + 1) where
  symm {x y} left right equal := by
    obtain ⟨s, ofX, exactS, smallS⟩ := complete.settles_small left
    obtain ⟨t, ofY, exactT, smallT⟩ := complete.settles_small right
    rw [complete.isEqual_iff_agree laws left.1 right.1 ofX ofY smallS smallT] at equal
    rw [complete.isEqual_iff_agree laws right.1 left.1 ofY ofX smallT smallS]
    apply equal.symm exactS exactT
    intro a inA b inB
    exact laws.symm (smallS a inA) (smallT b inB)
  trans {x y z} ofX ofY ofZ equal equal' := by
    obtain ⟨s, settledX, exactS, smallS⟩ := complete.settles_small ofX
    obtain ⟨t, settledY, exactT, smallT⟩ := complete.settles_small ofY
    obtain ⟨u, settledZ, exactU, smallU⟩ := complete.settles_small ofZ
    rw [complete.isEqual_iff_agree laws ofX.1 ofY.1 settledX settledY smallS smallT] at equal
    rw [complete.isEqual_iff_agree laws ofY.1 ofZ.1 settledY settledZ smallT smallU] at equal'
    rw [complete.isEqual_iff_agree laws ofX.1 ofZ.1 settledX settledZ smallS smallU]
    refine equal.trans exactS exactT exactU ?_ equal'
    intro a inA b inB c inC
    exact laws.trans (smallS a inA) (smallT b inB) (smallU c inC)

theorem laws (complete : Complete engine) (bound : Nat) : Laws engine bound := by
  induction bound with
  | zero => exact ⟨fun small => absurd small.2 (Nat.not_lt_zero _),
      fun small => absurd small.2 (Nat.not_lt_zero _)⟩
  | succ bound ih => exact complete.laws_succ ih

-- Trees that are their own reductions are equal if they agree.
theorem isEqual_of_agree (complete : Complete engine) (left : Normal engine x)
    (right : Normal engine y) (agree : Agree engine x y) : Equal engine x y := by
  have laws := complete.laws (x.mass + y.mass)
  refine (complete.isEqual_iff_agree laws left.exact right.exact (left.settled complete)
    (right.settled complete) ?_ ?_).mpr agree
  · intro o member
    have lighter := operand_mass_lt member
    exact ⟨left.exact.operand member, by omega⟩
  · intro o member
    have lighter := operand_mass_lt member
    exact ⟨right.exact.operand member, by omega⟩

theorem symm (complete : Complete engine) (left : x.Exact) (right : y.Exact)
    (equal : Equal engine x y) : Equal engine y x :=
  (complete.laws (x.mass + y.mass + 1)).symm ⟨left, by omega⟩ ⟨right, by omega⟩ equal

theorem trans (complete : Complete engine) (ofX : x.Exact) (ofY : y.Exact) (ofZ : z.Exact)
    (equal : Equal engine x y) (equal' : Equal engine y z) : Equal engine x z :=
  (complete.laws (x.mass + y.mass + z.mass + 1)).trans ⟨ofX, by omega⟩ ⟨ofY, by omega⟩
    ⟨ofZ, by omega⟩ equal equal'

theorem chain (complete : Complete engine) (ofX : x.Exact) (ofY : y.Exact) (ofZ : z.Exact)
    (ofS : s.Exact) (first : Equal engine x y) (second : Equal engine y z)
    (third : Equal engine z s) : Equal engine x s :=
  complete.trans ofX ofY ofS first (complete.trans ofY ofZ ofS second third)

theorem pairsOff (complete : Complete engine) (left : ∀ x ∈ xs, x.Exact)
    (right : ∀ y ∈ ys, y.Exact) : (engine.pairOff xs ys).Finishes := by
  apply finishes_chained.pairOff
  intro x inX y inY
  exact complete.compares (left x inX) (right y inY)

theorem pairOff_iff (complete : Complete engine) (left : ∀ x ∈ xs, x.Exact)
    (right : ∀ y ∈ ys, y.Exact) :
    engine.pairOff xs ys = .done true ↔ Paired (Equal engine) xs ys := by
  apply Engine.pairOff_iff
  · intro x inX y inY
    exact complete.compares (left x inX) (right y inY)
  · intro x inX a inA y inY b inB
    have laws := complete.laws (x.mass + a.mass + y.mass + b.mass + 1)
    exact laws.instead ⟨left x inX, by omega⟩ ⟨left a inA, by omega⟩ ⟨right y inY, by omega⟩
      ⟨right b inB, by omega⟩

end Complete

-- What an equivalence relation needs, and that no order of the candidates matters where operands
-- are paired off: whether they can be is a matter of whether any pairing of equal ones exists.
structure EqualityLaws (config : Config) : Prop where
  refl : ∀ {a : Expr}, a.Exact → Answers config (·.isEqual a a) true
  symm : ∀ {a b : Expr}, a.Exact → b.Exact →
    ∃ equal, Answers config (·.isEqual a b) equal ∧ Answers config (·.isEqual b a) equal
  trans : ∀ {a b c : Expr}, a.Exact → b.Exact → c.Exact → Answers config (·.isEqual a b) true →
    Answers config (·.isEqual b c) true → Answers config (·.isEqual a c) true
  pairs : ∀ {xs ys : List Expr}, (∀ x ∈ xs, x.Exact) → (∀ y ∈ ys, y.Exact) →
    ∃ paired, Answers config (·.pairOff xs ys) paired ∧
      (paired = true ↔ Paired (fun x y => Answers config (·.isEqual x y) true) xs ys)
  order : ∀ {xs xs' ys ys' : List Expr}, (∀ x ∈ xs, x.Exact) → (∀ y ∈ ys, y.Exact) →
    xs.Perm xs' → ys.Perm ys' →
      ∃ paired, Answers config (·.pairOff xs ys) paired ∧ Answers config (·.pairOff xs' ys') paired

-- Under the standard weights equality is an equivalence relation on exact trees, and operands are
-- paired off whenever they can be.
theorem isEqual_equivalence {config : Config} (standard : config.Standard) :
    EqualityLaws config := by
  have complete := unbounded_complete standard
  constructor
  · intro a exact
    exact answers_isEqual.mpr (complete.isEqual_self exact)
  · intro a b left right
    have symm : Equal (unbounded config) a b ↔ Equal (unbounded config) b a :=
      ⟨complete.symm left right, complete.symm right left⟩
    obtain ⟨equal, ran, ran'⟩ :=
      (complete.compares left right).same_answer (complete.compares right left) symm
    exact ⟨equal, answers_isEqual.mpr ran, answers_isEqual.mpr ran'⟩
  · intro a b c ofA ofB ofC
    simp only [answers_isEqual]
    exact complete.trans ofA ofB ofC
  · intro xs ys left right
    obtain ⟨paired, ran⟩ := complete.pairsOff left right
    refine ⟨paired, answers_pairOff.mpr ran, ?_⟩
    have possible := complete.pairOff_iff left right
    rw [ran, done.injEq] at possible
    simp only [possible, answers_isEqual]
  · intro xs xs' ys ys' left right orderX orderY
    have left' : ∀ x ∈ xs', x.Exact := fun x member => left x (orderX.symm.subset member)
    have right' : ∀ y ∈ ys', y.Exact := fun y member => right y (orderY.symm.subset member)
    have same : (unbounded config).pairOff xs ys = .done true ↔
        (unbounded config).pairOff xs' ys' = .done true := by
      rw [complete.pairOff_iff left right, complete.pairOff_iff left' right',
        paired_perm orderX orderY]
    obtain ⟨paired, ran, ran'⟩ :=
      (complete.pairsOff left right).same_answer (complete.pairsOff left' right') same
    exact ⟨paired, answers_pairOff.mpr ran, answers_pairOff.mpr ran'⟩

-- Both x * y and y * x * 1 are equal to y * x, and so to one another.
theorem isEqual_equivalence_of_products :
    Answers {} (·.isEqual (product [symbol "x", symbol "y"])
        (product [symbol "y", symbol "x"])) true ∧
      Answers {} (·.isEqual (product [symbol "y", symbol "x", ofInt 1])
        (product [symbol "y", symbol "x"])) true ∧
      Answers {} (·.isEqual (product [symbol "x", symbol "y"])
        (product [symbol "y", symbol "x", ofInt 1])) true := by
  have laws : EqualityLaws {} := isEqual_equivalence (by decide)
  have first : (within {} 6).isEqual (product [symbol "x", symbol "y"])
      (product [symbol "y", symbol "x"]) = .done true := by cbv
  have second : (within {} 6).isEqual (product [symbol "y", symbol "x", ofInt 1])
      (product [symbol "y", symbol "x"]) = .done true := by cbv
  have first' := Answers.of_run (fun below => below.isEqual _ _) first
  have second' := Answers.of_run (fun below => below.isEqual _ _) second
  refine ⟨first', second', ?_⟩
  obtain ⟨equal, there, back⟩ := laws.symm (a := product [symbol "y", symbol "x", ofInt 1])
    (b := product [symbol "y", symbol "x"]) (by decide) (by decide)
  exact laws.trans (by decide) (by decide) (by decide) first' (there.unique second' ▸ back)

end Engine
end SymbolicArith
