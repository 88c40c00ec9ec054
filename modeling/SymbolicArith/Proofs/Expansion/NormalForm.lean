import SymbolicArith.Proofs.Expansion.Steps
import SymbolicArith.Proofs.Expr.Mass

open SymbolicArith.Expr SymbolicArith.Outcome

-- Expansion ends, and what it leaves is fully expanded: no product has a sum for a factor, and no
-- power could be unrolled. A fully expanded tree is expanded to itself. So the products that come of
-- a distribution, whose factors are expanded already, need only give up their sums, one by one.
namespace SymbolicArith

variable {config : Config} {inner : Expr → Outcome Expr} {e r f : Expr} {es factors : List Expr}
  {depth : Nat}

namespace Expr

-- Not a product with a sum for a factor, nor a power whose exponent is a natural number within the
-- limit.
def ExpandedNode (config : Config) : Expr → Prop
  | .product factors => ∀ f ∈ factors, f.kind ≠ .sum
  | .power _ (.number value) =>
    ∀ n : ℕ, value.integer? = some ↑n → ∃ limit, config.maxUnroll = some limit ∧ limit < n
  | _ => True

structure FullyExpanded (config : Config) (e : Expr) : Prop where
  flat : e.Flat
  everywhere : e.Everywhere (ExpandedNode config)

end Expr

theorem repetitions?_eq_some {exponent : Expr} {count : ℕ}
    (some : config.repetitions? exponent = some count) :
    ∃ value, exponent = number value ∧ value.integer? = Option.some ↑count := by
  unfold Config.repetitions? at some
  split at some
  · rename_i value
    split at some
    · rename_i n whole
      split at some
      · obtain rfl : n = count := by simpa using some
        exact ⟨value, rfl, whole⟩
      · cases some
    · cases some
  · cases some

theorem natural_of_repetitions? {exponent : Expr} {n : ℕ} (exact : exponent.Exact)
    (repeated : config.repetitions? exponent = some n) :
    ∃ value, exponent = number value ∧ value.rational? = some (n : ℚ) := by
  obtain ⟨value, rfl, whole⟩ := repetitions?_eq_some repeated
  obtain ⟨q, is⟩ := exact.number
  rw [Literal.integer?_eq is, Literal.integral?_eq_some] at whole
  exact ⟨value, rfl, by rw [is, whole, Int.cast_natCast]⟩

theorem repetitions?_eq_none {base exponent : Expr} :
    config.repetitions? exponent = none ↔ ExpandedNode config (power base exponent) := by
  cases exponent with
  | number value =>
    constructor
    · intro none n whole
      simp only [Config.repetitions?, whole] at none
      cases limit : config.maxUnroll with
      | none => simp [limit] at none
      | some limit' =>
        simp only [limit, Option.all_some, decide_eq_true_eq] at none
        exact ⟨limit', rfl, by by_contra small; simp [Nat.not_lt.mp small] at none⟩
    · intro node
      simp only [Config.repetitions?]
      split
      · rename_i n whole
        obtain ⟨limit, set, beyond⟩ := node n whole
        simp [set, Nat.not_le.mpr beyond]
      · rfl
  | symbol | nary | power => simp [Config.repetitions?, ExpandedNode]

namespace Expr

-- A node whose operands are fully expanded.
structure Ready (config : Config) (e : Expr) : Prop where
  flat : e.Flat
  below : ∀ o ∈ e.operands, FullyExpanded config o

namespace FullyExpanded

theorem ofInt (n : Int) : FullyExpanded config (ofInt n) :=
  ⟨flat_terminal rfl, everywhere_number.mpr trivial⟩

theorem operand (full : FullyExpanded config e) (member : o ∈ e.operands) :
    FullyExpanded config o :=
  ⟨full.flat.operand member, full.everywhere.operand member⟩

theorem ready (full : FullyExpanded config e) : Ready config e :=
  ⟨full.flat, fun _ => full.operand⟩

theorem factor_kind (full : FullyExpanded config (product factors)) (member : f ∈ factors) :
    f.kind ≠ .sum :=
  full.everywhere.here f member

end FullyExpanded

theorem Ready.fullyExpanded (ready : Ready config e) (node : ExpandedNode config e) :
    FullyExpanded config e := by
  refine ⟨ready.flat, ?_⟩
  have below : ∀ o ∈ e.operands, o.Everywhere (ExpandedNode config) :=
    fun o member => (ready.below o member).everywhere
  cases e with
  | number | symbol => simpa using node
  | nary op es => exact everywhere_nary.mpr ⟨node, below⟩
  | power base exponent =>
    exact everywhere_power.mpr ⟨node, below _ (by simp [operands]), below _ (by simp [operands])⟩

-- What fully expanded operands contribute to a join is fully expanded.
theorem spliced_fullyExpanded (op : Nary) (full : ∀ e ∈ es, FullyExpanded config e) :
    ∀ o ∈ es.flatMap (·.spliced op), FullyExpanded config o := by
  intro o member
  obtain ⟨e, present, part⟩ := List.mem_flatMap.mp member
  rcases mem_spliced part with ⟨rfl, _⟩ | ⟨inner, rfl, within⟩
  · exact full o present
  · exact (full _ present).operand within

theorem join_ready (op : Nary) (full : ∀ e ∈ es, FullyExpanded config e) :
    Ready config (op.join es) := by
  have parts := spliced_fullyExpanded op full
  refine ⟨Nary.join_flat fun e member => (full e member).flat, ?_⟩
  exact Nary.collect_induct (fun _ => nofun) (fun o member => (parts o member).ready.below)
    fun _ => parts

theorem ready_power {base exponent : Expr} (full : FullyExpanded config base)
    (full' : FullyExpanded config exponent) : Ready config (power base exponent) :=
  ⟨flat_power.mpr ⟨full.flat, full'.flat⟩, by simpa [operands] using ⟨full, full'⟩⟩

theorem Ready.copies {base exponent : Expr} (ready : Ready config (power base exponent)) :
    ∀ f ∈ List.replicate count base, FullyExpanded config f := by
  intro f member
  rw [List.eq_of_mem_replicate member]
  exact ready.below base (by simp [operands])

theorem join_sum_fullyExpanded (full : ∀ e ∈ es, FullyExpanded config e) :
    FullyExpanded config (Nary.sum.join es) := by
  refine (join_ready .sum full).fullyExpanded ?_
  have parts := spliced_fullyExpanded .sum full
  exact Nary.collect_induct trivial (fun o member => (parts o member).everywhere.here)
    fun _ => trivial

-- A product of fully expanded factors that is no product after all is one of them.
theorem join_product_fullyExpanded (full : ∀ e ∈ es, FullyExpanded config e)
    (other : (Nary.product.join es).kind ≠ .product) :
    FullyExpanded config (Nary.product.join es) := by
  unfold Nary.join at other ⊢
  rcases Nary.product.collect_cases (es.flatMap (·.spliced .product)) with none | one | ⟨_, several⟩
  · exact none ▸ .ofInt 1
  · exact spliced_fullyExpanded .product full _ one
  · exact absurd (several ▸ rfl) other

end Expr

section

variable (below : ∀ {e r}, inner e = .done r → FullyExpanded config r)

include below

theorem distributed_fullyExpanded (ready : Ready config e)
    (other : e.kind ≠ .product → FullyExpanded config e) (distributed : Distributed inner e r) :
    FullyExpanded config r := by
  cases distributed with
  | same noSum =>
    by_cases own : e.kind = .product
    · obtain ⟨factors, rfl⟩ := eq_nary_of_kind own
      exact ready.fullyExpanded (noSum rfl)
    · exact other own
  | spread each =>
    apply join_sum_fullyExpanded
    intro r member
    obtain ⟨_, _, ran⟩ := pair_of_mem_right each member
    exact below ran

theorem multipliedOut_fullyExpanded (ready : Ready config e)
    (joined : MultipliedOut config inner e r) : FullyExpanded config r := by
  cases joined with
  | kept none => exact ready.fullyExpanded (repetitions?_eq_none.mp none)
  | unrolled _ distributed =>
    exact distributed_fullyExpanded below (join_ready .product ready.copies)
      (join_product_fullyExpanded ready.copies) distributed
  | distributed notPower distributed =>
    refine distributed_fullyExpanded below ready ?_ distributed
    intro notProduct
    refine ready.fullyExpanded ?_
    cases e with
    | number | symbol => trivial
    | nary op es =>
      cases op with
      | sum => trivial
      | product => exact absurd rfl notProduct
    | power => exact absurd rfl notPower

end

theorem expandWithin_fullyExpanded (run : e.expandWithin config depth = .done r) :
    FullyExpanded config r := by
  induction depth generalizing e r with
  | zero => cases run
  | succ depth ih =>
    cases expandStep_expanded run with
    | terminal terminal =>
      cases e with
      | number | symbol => exact ⟨flat_terminal rfl, by simp [ExpandedNode]⟩
      | nary | power => cases terminal
    | @nary op _ _ _ below joined =>
      refine multipliedOut_fullyExpanded ih (join_ready op ?_) joined
      intro r member
      obtain ⟨_, _, ran⟩ := pair_of_mem_right below member
      exact ih ran
    | power ofBase ofExponent joined =>
      exact multipliedOut_fullyExpanded ih (ready_power (ih ofBase) (ih ofExponent)) joined

namespace Expr

namespace FullyExpanded

theorem multiplyOut_eq (full : FullyExpanded config e) :
    multiplyOut config inner e = .done e := by
  cases e with
  | number | symbol => rfl
  | nary op es =>
    cases op with
    | sum => rfl
    | product =>
      exact distribute_none (firstSum?_eq_none.mpr full.everywhere.here)
  | power base exponent =>
    exact multiplyOut_none (repetitions?_eq_none.mpr full.everywhere.here)

-- Operands that are expanded to themselves leave to their node only what follows them.
theorem expandStep_eq (ready : Ready config e) (composite : e.isTerminal = false)
    (same : ∀ o ∈ e.operands, inner o = .done o) :
    expandStep config inner e = multiplyOut config inner e := by
  cases e with
  | number | symbol => cases composite
  | nary op es =>
    have all : es.mapM inner = .done es := mapM_eq_done.mpr (List.forall₂_same.mpr same)
    obtain ⟨⟨long, others⟩, _⟩ := flat_nary.mp ready.flat
    simp [expandStep, all, Nary.join_of_kind_ne long others]
  | power base exponent =>
    have ofBase := same base (by simp [operands])
    have ofExponent := same exponent (by simp [operands])
    simp [expandStep, ofBase, ofExponent]

theorem expandWithin_eq (full : FullyExpanded config e) (enough : e.mass ≤ depth) :
    e.expandWithin config depth = .done e := by
  induction depth generalizing e with
  | zero =>
    have positive := mass_pos e
    omega
  | succ depth ih =>
    cases composite : e.isTerminal with
    | true =>
      cases e with
      | number | symbol => rfl
      | nary | power => cases composite
    | false =>
      have same : ∀ o ∈ e.operands, o.expandWithin config depth = .done o := by
        intro o member
        have lighter := operand_mass_lt member
        exact ih (full.operand member) (by omega)
      rw [expandWithin, expandStep_eq full.ready composite same, full.multiplyOut_eq]

end FullyExpanded

end Expr

section

variable (config)

theorem expandWithin_grows (e : Expr) : Grows fun depth => e.expandWithin config depth :=
  fun le => expandWithin_extended le e

theorem multiplyOut_grows (e : Expr) :
    Grows fun depth => multiplyOut config (expandWithin config depth) e :=
  fun le => multiplyOut_extended (expandWithin_extended le) e

end

theorem Expr.FullyExpanded.ends (full : FullyExpanded config e) :
    Ends fun depth => e.expandWithin config depth :=
  .of_eq_done e.mass (full.expandWithin_eq (Nat.le_refl _))

-- Of a node of fully expanded operands it remains to multiply it out.
theorem Expr.Ready.ends (ready : Ready config e) (composite : e.isTerminal = false)
    (ends : Ends fun depth => multiplyOut config (expandWithin config depth) e) :
    Ends fun depth => e.expandWithin config depth := by
  obtain ⟨depth, r, ran⟩ := ends
  let deeper := max depth e.mass
  have same : ∀ o ∈ e.operands, o.expandWithin config deeper = .done o := by
    intro o member
    have lighter := operand_mass_lt member
    exact (ready.below o member).expandWithin_eq (by omega)
  have step : e.expandWithin config (deeper + 1) =
      multiplyOut config (expandWithin config deeper) e :=
    FullyExpanded.expandStep_eq ready composite same
  have ran' := (multiplyOut_grows config e (Nat.le_max_left depth e.mass)).eq_done ran
  exact .of_eq_done (deeper + 1) (step.trans ran')

-- The factors of a product as they are when it is distributed.
abbrev Factors (config : Config) (factors : List Expr) : Prop :=
  ∀ f ∈ factors, FullyExpanded config f ∧ f.kind ≠ .product

def sumCount (factors : List Expr) : Nat := factors.countP (·.kind = .sum)

@[simp] theorem sumCount_append : sumCount (es ++ factors) = sumCount es + sumCount factors :=
  List.countP_append

@[simp] theorem sumCount_sum_cons {terms : List Expr} :
    sumCount (sum terms :: factors) = sumCount factors + 1 := by
  simp [sumCount, kind, Nary.kind]

-- The term of a sum brings no sum into the product.
theorem term_factors {terms : List Expr} (full : FullyExpanded config (sum terms))
    (member : term ∈ terms) :
    Factors config (term.spliced .product) ∧ sumCount (term.spliced .product) = 0 := by
  have ofTerm : FullyExpanded config term := full.operand member
  have notSum : term.kind ≠ .sum := (flat_nary.mp full.flat).1.2 term member
  by_cases own : term.kind = .product
  · obtain ⟨factors, rfl⟩ := eq_nary_of_kind own
    rw [spliced_self]
    refine ⟨fun f inside => ⟨ofTerm.operand inside, (flat_nary.mp ofTerm.flat).1.2 f inside⟩, ?_⟩
    exact List.countP_eq_zero.mpr fun f inside => by simpa using ofTerm.factor_kind inside
  · have alone : term.spliced .product = [term] := spliced_of_kind_ne own
    rw [alone]
    refine ⟨?_, by simp [sumCount, notSum]⟩
    simpa [Factors] using ⟨ofTerm, own⟩

theorem Expr.Ready.ofProduct (ready : Ready config (product factors)) : Factors config factors :=
  fun f member => ⟨ready.below f member, (flat_nary.mp ready.flat).1.2 f member⟩

theorem Factors.flat (full : Factors config factors) (long : 2 ≤ factors.length) :
    (product factors).Flat :=
  flat_nary.mpr ⟨⟨long, fun f member => (full f member).2⟩, fun f member => (full f member).1.flat⟩

theorem Factors.collect_ends (full : Factors config factors)
    (ends : Ends fun depth => distribute (expandWithin config depth) (product factors)) :
    Ends fun depth => (Nary.product.collect factors).expandWithin config depth := by
  rcases Nary.product.collect_cases factors with none | one | ⟨long, several⟩
  · rw [none]
    exact (FullyExpanded.ofInt _).ends
  · exact (full _ one).1.ends
  · rw [several]
    exact Ready.ends ⟨full.flat long, fun f member => (full f member).1⟩ rfl ends

-- A distribution takes one sum out of the product, so it ends if every product with one sum less is
-- distributed in the end.
theorem distribute_ends (full : Factors config factors) :
    Ends fun depth => distribute (expandWithin config depth) (product factors) := by
  induction count : sumCount factors using Nat.strong_induction_on generalizing factors with
  | _ n ih =>
    cases found : firstSum? factors with
    | none =>
      simp only [distribute_none found]
      exact .done _
    | some split =>
      obtain ⟨terms, others⟩ := split
      simp only [distribute_some found]
      obtain ⟨before, after, rfl, rfl⟩ := firstSum?_some found
      have ofSum : FullyExpanded config (sum terms) := (full _ (by simp)).1
      have rest : Factors config (before ++ after) := by
        intro f member
        exact full f (by simp only [List.mem_append, List.mem_cons] at member ⊢; tauto)
      refine .bind (.mapM (fun _ => expandWithin_grows config _) ?_)
        (fun le => .mapM (fun _ => expandWithin_extended le _) _) (fun _ _ _ _ => .refl _)
        fun _ _ _ => .done _
      intro term member
      obtain ⟨ofTerm, noSum⟩ := term_factors ofSum member
      have all : Factors config (before ++ after ++ term.spliced .product) := by
        intro f inside
        rcases List.mem_append.mp inside with early | late
        · exact rest f early
        · exact ofTerm f late
      have fewer : sumCount (before ++ after ++ term.spliced .product) < n := by
        simp only [sumCount_append, sumCount_sum_cons] at count ⊢
        omega
      have parts : (before ++ after ++ [term]).flatMap (·.spliced .product) =
          before ++ after ++ term.spliced .product := by
        rw [List.flatMap_append, flatMap_spliced_of_kind_ne fun f inside => (rest f inside).2]
        simp
      rw [Nary.join, parts]
      exact all.collect_ends (ih _ fewer all rfl)

theorem distribute_join_ends (full : ∀ f ∈ es, FullyExpanded config f) :
    Ends fun depth => distribute (expandWithin config depth) (Nary.product.join es) := by
  by_cases own : (Nary.product.join es).kind = .product
  · have ready := join_ready .product full
    obtain ⟨factors, several⟩ := eq_nary_of_kind own
    rw [several] at ready ⊢
    exact distribute_ends ready.ofProduct
  · simp only [distribute_other own]
    exact .done _

theorem multiplyOut_ends (ready : Ready config e) :
    Ends fun depth => multiplyOut config (expandWithin config depth) e := by
  cases e with
  | number | symbol => exact .done _
  | nary op es =>
    cases op with
    | sum => exact .done _
    | product => exact distribute_ends ready.ofProduct
  | power base exponent =>
    cases found : config.repetitions? exponent with
    | none =>
      simp only [multiplyOut_none found]
      exact .done _
    | some count =>
      simp only [multiplyOut_some found]
      exact distribute_join_ends ready.copies

theorem expandWithin_ends (config : Config) (e : Expr) :
    Ends fun depth => e.expandWithin config depth := by
  induction e with
  | number | symbol => exact .of_eq_done 1 rfl
  | nary op es ih =>
    apply Ends.of_succ
    refine .bind (.mapM (expandWithin_grows config) ih)
      (fun le => .mapM (expandWithin_extended le) _) (fun _ => multiplyOut_grows config _) ?_
    intro depth expanded ran
    apply multiplyOut_ends (join_ready op ?_)
    intro r member
    obtain ⟨_, _, ran⟩ := pair_of_mem_right (mapM_eq_done.mp ran) member
    exact expandWithin_fullyExpanded ran
  | power base exponent ofBase ofExponent =>
    apply Ends.of_succ
    refine .bind ofBase (expandWithin_grows config base) ?_ ?_
    · intro b _ _ le
      exact (expandWithin_extended le exponent).bind fun _ => multiplyOut_grows config _ le
    · intro _ b ranBase
      refine .bind ofExponent (expandWithin_grows config exponent)
        (fun _ => multiplyOut_grows config _) ?_
      intro _ e ranExponent
      exact multiplyOut_ends (ready_power (expandWithin_fullyExpanded ranBase)
        (expandWithin_fullyExpanded ranExponent))

-- From some depth on the first tree is expanded to the second.
def Expands (config : Config) (e r : Expr) : Prop :=
  ∃ bound, ∀ depth, bound ≤ depth → e.expandWithin config depth = .done r

theorem expands (config : Config) (e : Expr) : ∃ r, Expands config e r :=
  (expandWithin_ends config e).answer (expandWithin_grows config e)

theorem Expands.of_run (run : e.expandWithin config depth = .done r) : Expands config e r :=
  ⟨depth, fun _ le => (expandWithin_extended le e).eq_done run⟩

theorem Expands.unique {r' : Expr} (one : Expands config e r) (other : Expands config e r') :
    r = r' := by
  obtain ⟨bound, ran⟩ := one
  obtain ⟨bound', ran'⟩ := other
  have same := (ran (max bound bound') (Nat.le_max_left _ _)).symm.trans
    (ran' _ (Nat.le_max_right _ _))
  exact done.inj same

theorem Expr.FullyExpanded.expands (full : FullyExpanded config e) : Expands config e e :=
  ⟨e.mass, fun _ enough => full.expandWithin_eq enough⟩

theorem Expands.fullyExpanded (expands : Expands config e r) : FullyExpanded config r := by
  obtain ⟨bound, ran⟩ := expands
  exact expandWithin_fullyExpanded (ran bound (Nat.le_refl _))

-- Every tree has an expanded form. In it no product has a sum for a factor, every power with a
-- natural number for its exponent is beyond the limit, and expanding it again leaves it as it is.
theorem expand_normal_form (config : Config) (t : Expr) :
    ∃ r, Expands config t r ∧ r.Everywhere (ExpandedNode config) ∧ Expands config r r := by
  obtain ⟨r, expands⟩ := expands config t
  have full := expands.fullyExpanded
  exact ⟨r, expands, full.everywhere, r.mass, fun _ enough => full.expandWithin_eq enough⟩

example : (product [two, sum [symbol "x", two]]).expandWithin {} 4 =
    .done (sum [product [two, symbol "x"], product [two, two]]) := by cbv

end SymbolicArith
