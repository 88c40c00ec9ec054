import SymbolicArith.Proofs.Reduction.Complete

open SymbolicArith.Expr SymbolicArith.Outcome Relation

-- Reduction as calculation. Under the standard weights two numbers always merge, so a pass over
-- numbers leaves one of them at most, and one reduction works out a tree without symbols. Whatever
-- is worked out is in canonical form; a number that nothing is worked out of stays as it is.
namespace SymbolicArith

namespace Expr

-- The value of a tree in which there are no symbols. An empty sum is 0 and an empty product 1; any
-- base to the power 0 is 1, and 0 to any other power is 0.
def amount (e : Expr) : ℚ := e.value fun _ => 0

-- No symbols and no floats, and whole exponents up to the limit.
def CalculableNode (limit : Nat) : Expr → Prop
  | .number (.float _) | .symbol _ => False
  | .power _ exponent => exponent.amount.den = 1 ∧ exponent.amount.num.natAbs ≤ limit
  | .number (.whole _) | .number (.ratio _) | .nary _ _ => True

instance (limit : Nat) : DecidablePred (CalculableNode limit)
  | .number (.float _) | .symbol _ => .isFalse id
  | .power _ exponent => inferInstanceAs
    (Decidable (exponent.amount.den = 1 ∧ exponent.amount.num.natAbs ≤ limit))
  | .number (.whole _) | .number (.ratio _) | .nary _ _ => .isTrue trivial

abbrev Calculable (limit : Nat) : Expr → Prop := Everywhere (CalculableNode limit)

-- The tree without the sums and products of one operand that it stands in.
def unwrapped : Expr → Expr
  | .nary _ [e] => e.unwrapped
  | e => e

variable {e : Expr} {es : List Expr} {op : Nary} {limit : Nat}

theorem amount_nary : (nary op es).amount = op.total (es.map amount) := value_nary
theorem amount_number {value : Literal} {q : ℚ} (is : value.rational? = some q) :
    (number value).amount = q := value_number is
theorem IsNumber.amount {q : ℚ} (number : e.IsNumber q) : e.amount = q := by
  obtain ⟨value, rfl, is⟩ := number
  exact value_number is
theorem amount_power :
    (power base exponent).amount = base.amount ^ exponent.amount.num := value_power

theorem calculable_nary : (nary op es).Calculable limit ↔ ∀ e ∈ es, e.Calculable limit := by
  simp [CalculableNode]

theorem Calculable.exact (calculable : e.Calculable limit) : e.Exact := by
  induction e with
  | number value =>
    cases value with
    | whole | ratio => exact everywhere_number.mpr trivial
    | float => exact (everywhere_number.mp calculable).elim
  | symbol => exact everywhere_symbol.mpr trivial
  | nary op es ih =>
    exact exact_nary.mpr fun e member => ih e member (calculable_nary.mp calculable e member)
  | power base exponent ofBase ofExponent =>
    obtain ⟨_, below, below'⟩ := everywhere_power.mp calculable
    exact exact_power.mpr ⟨ofBase below, ofExponent below'⟩

end Expr

namespace Engine

variable {engine : Engine Outcome} {op : Nary} {x y e r : Expr} {xs ys es : List Expr}
  {p q : ℚ} {ps qs : List ℚ}

-- A combination of two numbers that is a number again is lighter than their plain node.
theorem lighter_number (standard : engine.config.Standard) (op : Operator) (left : x.IsNumber p)
    (right : y.IsNumber q) (v : ℚ) : engine.lighter (number (.exact v)) (op.plain x y) := by
  obtain ⟨a, rfl, _⟩ := left
  obtain ⟨b, rfl, _⟩ := right
  rw [lighter_iff standard, mass_number]
  cases op with
  | nary op =>
    rw [Operator.plain, op.join_pair (number a) (number b) (number_kind_ne _ (.nary op))
      (number_kind_ne _ (.nary op))]
    simp
  | power => simp [Operator.plain]

theorem merge_numbers (standard : engine.config.Standard) (op : Nary) (left : x.IsNumber p)
    (right : y.IsNumber q) : ∃ v, engine.merge (.nary op) x y = .done (some (number (.exact v))) := by
  have combined : ∃ v, engine.combine (.nary op) x y = .done (number (.exact v)) := by
    obtain ⟨a, rfl, isA⟩ := left
    obtain ⟨b, rfl, isB⟩ := right
    cases op with
    | sum =>
      exact ⟨p + q, by simp [combine, attempt, foldNumbers, foldLiterals, ofOption,
        Literal.add?_eq isA isB]⟩
    | product =>
      exact ⟨p * q, by simp [combine, attempt, foldNumbers, foldLiterals, ofOption,
        Literal.mul?_eq isA isB]⟩
  obtain ⟨v, combined⟩ := combined
  have lighter := lighter_number standard (.nary op) left right v
  exact ⟨v, by simp [merge, combined, lighter]⟩

theorem absorb_numbers {absorbed : Absorbed} (standard : engine.config.Standard)
    (first : x.IsNumber p) (numbers : ∀ y ∈ ys, ∃ q, y.IsNumber q)
    (run : engine.absorb (.nary op) x ys = .done absorbed) : absorbed.rest = [] := by
  induction ys generalizing x p absorbed with
  | nil =>
    cases done.inj run
    rfl
  | cons y ys ih =>
    obtain ⟨q, second⟩ := numbers y (by simp)
    obtain ⟨v, merged⟩ := merge_numbers standard op first second
    simp only [absorb, merged, done_bind] at run
    obtain ⟨after, ran, answer⟩ := bind_eq_done.mp run
    cases done.inj answer
    have none := ih (isNumber_exact v) (fun o member => numbers o (by simp [member])) ran
    exact none

theorem sweep_numbers {turns : Nat} (standard : engine.config.Standard)
    (numbers : ∀ e ∈ es, ∃ q, e.IsNumber q) (enough : es.length ≤ turns)
    (run : engine.sweep (.nary op) turns es = .done (ys, steps)) : ys.length ≤ 1 := by
  cases turns with
  | zero =>
    obtain rfl : es = [] := List.length_eq_zero_iff.mp (by omega)
    cases done.inj run
    exact Nat.zero_le 1
  | succ turns =>
    cases es with
    | nil =>
      cases done.inj run
      exact Nat.zero_le 1
    | cons e es =>
      obtain ⟨p, number⟩ := numbers e (by simp)
      obtain ⟨absorbed, first, run⟩ := bind_eq_done.mp run
      have none :=
        absorb_numbers standard number (fun o member => numbers o (by simp [member])) first
      obtain ⟨⟨rest, later⟩, second, answer⟩ := bind_eq_done.mp run
      cases done.inj answer
      have shorter := pass_length_le (sweep_passed (by simp [none]) second).merges
      simpa [none] using shorter

theorem pass_numbers (standard : engine.config.Standard)
    (run : ReflTransGen (Merges engine (.nary op)) xs ys) (numbers : ∀ x ∈ xs, ∃ q, x.IsNumber q) :
    ∀ y ∈ ys, ∃ q, y.IsNumber q := by
  refine pass_kept ?_ run numbers
  rintro _ _ r ⟨p, left⟩ ⟨q, right⟩ accepted
  obtain ⟨v, merged⟩ := merge_numbers standard op left right
  rw [merged] at accepted
  cases accepted
  exact ⟨v, isNumber_exact v⟩

-- The last number of a pass has been merged, unless it was alone from the start.
theorem pass_last (standard : engine.config.Standard)
    (run : ReflTransGen (Merges engine (.nary op)) xs [y]) (numbers : ∀ x ∈ xs, ∃ q, x.IsNumber q) :
    xs = [y] ∨ ∃ v, y = number (.exact v) := by
  generalize last : [y] = ys at run
  cases run with
  | refl => exact .inl rfl
  | tail run merges =>
    have below := pass_numbers standard run numbers
    cases merges with
    | @merge a b merged before between after accepted =>
      obtain ⟨p, left⟩ := below a (by simp)
      obtain ⟨q, right⟩ := below b (by simp)
      obtain ⟨v, folded⟩ := merge_numbers standard op left right
      rw [folded] at accepted
      cases accepted
      have member : number (.exact v) ∈ [y] := last ▸ List.mem_append_right _ (List.mem_cons_self)
      exact .inr ⟨v, (List.mem_singleton.mp member).symm⟩

-- A number to a whole power. A negative power of 0 does not fold, and is 0 by the rule for the base.
theorem combine_power {n : ℤ} (left : x.IsNumber p) (right : y.IsNumber n)
    (within : n.natAbs ≤ engine.config.maxFoldExponent) :
    engine.combine .power x y = .done (number (.exact (p ^ n))) := by
  obtain ⟨a, rfl, isA⟩ := left
  obtain ⟨b, rfl, isB⟩ := right
  have whole : b.integer? = some n := by rw [Literal.integer?_eq isB, Literal.integral?_intCast]
  by_cases undefined : p = 0 ∧ n < 0
  · obtain ⟨rfl, negative⟩ := undefined
    have other : n ≠ 0 := by omega
    have folds : engine.foldNumbers .power (number a) (number b) = .done none := by
      simp [foldNumbers, foldLiterals, Literal.foldPower?, whole, negative,
        Literal.equalsInt_eq isA]
    simp [combine, attempt, folds, rules, firstRule, isLiteral, Literal.equalsInt_eq isA,
      Literal.equalsInt_eq isB, zero_zpow n other, other, zero, Expr.ofInt,
      ← Literal.exact_intCast]
  · have defined : p = 0 → 0 ≤ n := fun zero => by
      by_contra negative
      exact undefined ⟨zero, by omega⟩
    simp [combine, attempt, foldNumbers, foldLiterals, foldPower?_eq isA isB defined within]

theorem merge_power {n : ℤ} (standard : engine.config.Standard) (left : x.IsNumber p)
    (right : y.IsNumber n) (within : n.natAbs ≤ engine.config.maxFoldExponent) :
    engine.merge .power x y = .done (some (number (.exact (p ^ n)))) := by
  have lighter := lighter_number standard .power left right (p ^ n)
  simp [merge, combine_power left right within, lighter]

-- A pass over numbers is a single number, what they come to under the operator.
theorem Complete.sweep_total {turns : Nat} (complete : Complete engine)
    (sound : Sound (fun _ => 0) engine) (numbers : ∀ x ∈ xs, ∃ q, x.IsNumber q)
    (enough : xs.length ≤ turns) (run : engine.sweep (.nary op) turns xs = .done (ys, steps)) :
    xs = [op.join ys] ∨ op.join ys = number (.exact (op.total (xs.map amount))) := by
  have short := sweep_numbers complete.standard numbers enough run
  have pass := (sweep_passed enough run).merges
  have regular : ∀ x ∈ xs, x.Regular fun _ => 0 := by
    intro x member
    obtain ⟨q, value, rfl, is⟩ := numbers x member
    exact ⟨exact_number.mpr ⟨q, is⟩, everywhere_number.mpr trivial⟩
  have total : op.total (ys.map amount) = op.total (xs.map amount) :=
    (sound.pass pass regular).2
  rw [← total]
  match ys with
  | [] =>
    cases op <;> exact .inr rfl
  | [y] =>
    obtain ⟨q, value, rfl, is⟩ := pass_numbers complete.standard pass numbers y (by simp)
    have alone : op.join [number value] = number value := by
      cases op <;> rfl
    rw [alone]
    rcases pass_last complete.standard pass numbers with same | ⟨v, merged⟩
    · exact .inl same
    · have sole : op.total [q] = q := by
        cases op <;> simp [Nary.total]
      cases merged
      obtain rfl : v = q := Option.some.inj ((Literal.rational?_exact v).symm.trans is)
      rw [List.map_singleton, amount_number is, sole]
      exact .inr rfl
  | _ :: _ :: _ => simp at short

-- One reduction works a tree without symbols out. What it leaves is in canonical form, unless it is
-- the tree itself apart from sums and products of one operand.
theorem Complete.reduce_calculable (complete : Complete engine)
    (sound : Sound (fun _ => 0) engine)
    (calculable : e.Calculable engine.config.maxFoldExponent) :
    ∃ value, engine.reduce e = .done (number value) ∧ value.rational? = some e.amount ∧
      (e.unwrapped = number value ∨ value = .exact e.amount) := by
  induction e with
  | number value =>
    obtain ⟨q, is⟩ := calculable.exact.number
    have fixed := (Normal.terminal complete calculable.exact rfl).fixed
    exact ⟨value, fixed, by rw [is, amount_number is], .inl rfl⟩
  | symbol => exact (everywhere_symbol.mp calculable).elim
  | nary op es ih =>
    obtain ⟨r, run⟩ := complete.reduces calculable.exact
    obtain ⟨reduced, rest, steps, below, pass, rfl⟩ := reduceStep_nary (complete.reduceStep run)
    have each := calculable_nary.mp calculable
    have numbers : List.Forall₂ (fun e r => r.IsNumber e.amount) es reduced := by
      rw [List.forall₂_iff_zip] at below ⊢
      refine ⟨below.1, fun {e r} member => ?_⟩
      have present := (List.of_mem_zip member).1
      obtain ⟨value, ran, is, _⟩ := ih e present (each e present)
      cases done.inj ((below.2 member).symm.trans ran)
      exact isNumber_number.mpr is
    have amounts : es.map amount = reduced.map amount := by
      rw [← List.forall₂_eq_eq_eq, List.forall₂_map_left_iff, List.forall₂_map_right_iff]
      exact numbers.imp fun _ _ number => number.amount.symm
    have every : ∀ r ∈ reduced, ∃ q, r.IsNumber q := by
      intro r member
      obtain ⟨e, _, number⟩ := pair_of_mem_right numbers member
      exact ⟨_, number⟩
    rcases complete.sweep_total sound every (Nat.le_refl _) pass with alone | worked
    · rw [alone] at below
      cases below with
      | @cons e _ _ _ ran none =>
        cases none
        obtain ⟨value, worked, is, form⟩ := ih e (by simp) (each e (by simp))
        rw [done.inj (ran.symm.trans worked)] at run
        have same : (nary op [e]).amount = e.amount := by
          cases op <;> simp [amount_nary, Nary.total]
        exact ⟨value, run, by rw [is, same], by rwa [same, unwrapped]⟩
    · rw [worked, ← amounts, ← amount_nary] at run
      exact ⟨_, run, Literal.rational?_exact _, .inr rfl⟩
  | power base exponent ofBase ofExponent =>
    obtain ⟨⟨whole, within⟩, below, below'⟩ := everywhere_power.mp calculable
    obtain ⟨b, reducesBase, isBase, _⟩ := ofBase below
    obtain ⟨n, reducesExponent, isExponent, _⟩ := ofExponent below'
    obtain ⟨r, run⟩ := complete.reduces calculable.exact
    have merged := merge_power complete.standard (isNumber_number.mpr isBase)
      (isNumber_number.mpr
        (isExponent.trans (congrArg some (Rat.coe_int_num_of_den_eq_one whole).symm))) within
    cases reduceStep_reduced (complete.reduceStep run) with
    | terminal terminal => cases terminal
    | power base' exponent' refused =>
      cases done.inj (base'.symm.trans reducesBase)
      cases done.inj (exponent'.symm.trans reducesExponent)
      cases refused.symm.trans merged
    | merged base' exponent' accepted =>
      cases done.inj (base'.symm.trans reducesBase)
      cases done.inj (exponent'.symm.trans reducesExponent)
      cases accepted.symm.trans merged
      rw [← amount_power] at run
      exact ⟨_, run, Literal.rational?_exact _, .inr rfl⟩

-- Under the standard weights one reduction works out every tree without symbols and floats whose
-- exponents come to integers up to the limit, to a number that is its value. That is an integer if
-- it is whole, unless the tree is a number as it stands, alone or in sums and products of one
-- operand; if all numbers in the tree are so written, it is.
theorem reduce_calculates {config : Config} (standard : config.Standard)
    (calculable : e.Calculable config.maxFoldExponent) :
    ∃ value, Answers config (·.reduce e) (number value) ∧ value.rational? = some e.amount ∧
      (e.unwrapped = number value ∨ value = .exact e.amount) ∧
      (e.Canonical → value = .exact e.amount) := by
  have complete := unbounded_complete standard
  obtain ⟨value, worked, is, form⟩ :=
    complete.reduce_calculable (unbounded_sound config) calculable
  refine ⟨value, answers_reduce.mpr worked, is, form, fun canonical => ?_⟩
  obtain ⟨depth, ran⟩ := limit_eq_done worked
  exact (everywhere_number.mp (reduce_canonical canonical ran)).eq_exact is

-- An empty product, 0 to the power -2, 0 to the power 0, a fraction times a power and a sum of one.
theorem reduce_calculates_of_degenerate :
    Answers {} (·.reduce (sum [product [], power zero (ofInt (-2)), power (sum []) zero,
        product [number (.ratio (1 / 2)), power (ofInt (-2)) (ofInt 3)], sum [ofInt 7]]))
      (ofInt 5) := by
  have calculable : (sum [product [], power zero (ofInt (-2)), power (sum []) zero,
      product [number (.ratio (1 / 2)), power (ofInt (-2)) (ofInt 3)], sum [ofInt 7]]).Calculable
        ({} : Config).maxFoldExponent := by decide
  have canonical : (sum [product [], power zero (ofInt (-2)), power (sum []) zero,
      product [number (.ratio (1 / 2)), power (ofInt (-2)) (ofInt 3)], sum [ofInt 7]]).Canonical :=
    by decide +kernel
  have five : (sum [product [], power zero (ofInt (-2)), power (sum []) zero,
      product [number (.ratio (1 / 2)), power (ofInt (-2)) (ofInt 3)], sum [ofInt 7]]).amount =
        5 := by
    simp [amount, zero, Nary.total]
    norm_num
  have standard : ({} : Config).Standard := by decide
  obtain ⟨value, answers, _, _, form⟩ := reduce_calculates standard calculable
  rw [form canonical, five] at answers
  exact answers

-- A whole ratio comes out of a reduction as it went in, and is not the integer that it equals.
theorem reduce_keeps_ratio :
    (number (.ratio 2)).Calculable ({} : Config).maxFoldExponent ∧ (number (.ratio 2)).amount = 2 ∧
      Answers {} (·.reduce (number (.ratio 2))) (number (.ratio 2)) ∧
      (number (.ratio 2)).held = .ratio 2 ∧ ¬ (number (.ratio 2)).same (ofInt 2) := by
  have complete : (unbounded {}).Complete := unbounded_complete (by decide)
  have exact : (number (.ratio 2)).Exact := exact_number.mpr ⟨2, rfl⟩
  have fixed := (Normal.terminal complete exact rfl).fixed
  exact ⟨by decide, amount_number rfl, answers_reduce.mpr fixed, rfl,
    by simp [Expr.same, Literal.same, Expr.ofInt]⟩

end Engine

end SymbolicArith
