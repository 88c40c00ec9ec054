import Mathlib.Algebra.BigOperators.Ring.List
import Mathlib.Tactic.Ring
import SymbolicArith.Proofs.Expansion.NormalForm

open SymbolicArith.Expr SymbolicArith.Outcome

-- How many terms a tree has when it is multiplied out. The numbers of terms add up in a sum, multiply
-- in a product, and are raised to the exponent of a power that is repeated. Expansion keeps this count,
-- and in a fully expanded tree it is the number of terms that are there; so no term is lost, and none
-- is merged or written twice.
namespace SymbolicArith

variable {config : Config} {e r exponent : Expr} {es : List Expr} {depth : Nat}

-- The expanded form is a number, and that number is natural.
def ExpandsToNatural (config : Config) (exponent : Expr) (n : ℕ) : Prop :=
  ∃ value, Expands config exponent (number value) ∧ value.integer? = some ↑n

open Classical in
-- The natural number that an exponent expands to, if there is one and it is within the limit.
noncomputable def Config.unrolled? (config : Config) (exponent : Expr) : Option ℕ :=
  if repeated : ∃ n : ℕ, ExpandsToNatural config exponent n ∧ ∀ limit ∈ config.maxUnroll, n ≤ limit
  then some repeated.choose else none

-- The number of terms of a sum or product, by those of its operands.
def Nary.tally : Nary → List ℕ → ℕ
  | .sum, counts => counts.sum
  | .product, counts => counts.prod

namespace Expr

mutual

noncomputable def termCount (config : Config) : Expr → ℕ
  | .number _ | .symbol _ => 1
  | .nary op operands => op.tally (termCounts config operands)
  | .power base exponent =>
    match config.unrolled? exponent with
    | some n => base.termCount config ^ n
    | none => 1

noncomputable def termCounts (config : Config) : List Expr → List ℕ
  | [] => []
  | e :: es => e.termCount config :: termCounts config es

end

theorem termCounts_eq_map : termCounts config es = es.map (termCount config) := by
  induction es with
  | nil => rw [termCounts, List.map_nil]
  | cons e es ih => rw [termCounts, ih, List.map_cons]

@[simp] theorem termCount_number {value : Literal} : (number value).termCount config = 1 := by
  rw [termCount]
@[simp] theorem termCount_symbol : (symbol name).termCount config = 1 := by rw [termCount]
@[simp] theorem termCount_ofInt (n : Int) : (ofInt n).termCount config = 1 := termCount_number
@[simp] theorem termCount_nary {op : Nary} :
    (nary op es).termCount config = op.tally (es.map (termCount config)) := by
  rw [termCount, termCounts_eq_map]

end Expr

theorem ExpandsToNatural.unique {m n : ℕ} (one : ExpandsToNatural config exponent m)
    (other : ExpandsToNatural config exponent n) : m = n := by
  obtain ⟨value, expands, whole⟩ := one
  obtain ⟨value', expands', whole'⟩ := other
  cases expands.unique expands'
  exact_mod_cast Option.some.inj (whole.symm.trans whole')

theorem unrolled?_eq_some {n : ℕ} (natural : ExpandsToNatural config exponent n)
    (small : ∀ limit ∈ config.maxUnroll, n ≤ limit) : config.unrolled? exponent = some n := by
  have repeated : ∃ n : ℕ, ExpandsToNatural config exponent n ∧
      ∀ limit ∈ config.maxUnroll, n ≤ limit := ⟨n, natural, small⟩
  rw [Config.unrolled?, dif_pos repeated, repeated.choose_spec.1.unique natural]

theorem unrolled?_eq_none (none : ∀ n : ℕ, ExpandsToNatural config exponent n →
    ∃ limit ∈ config.maxUnroll, limit < n) : config.unrolled? exponent = .none := by
  refine dif_neg ?_
  rintro ⟨n, natural, small⟩
  obtain ⟨limit, set, beyond⟩ := none n natural
  exact absurd (small limit set) (Nat.not_le.mpr beyond)

-- An exponent is repeated as often before its expansion as after it.
theorem unrolled?_of_expands (expands : Expands config exponent r) :
    config.unrolled? exponent = config.unrolled? r := by
  have again := expands.fullyExpanded.expands
  have same : Expands config exponent = Expands config r := by
    funext r'
    exact propext
      ⟨fun other => expands.unique other ▸ again, fun other => again.unique other ▸ expands⟩
  unfold Config.unrolled? ExpandsToNatural
  rw [same]

theorem repetitions?_natural {value : Literal} {n : ℕ} (whole : value.integer? = some ↑n) :
    config.repetitions? (number value) = if config.maxUnroll.all (n ≤ ·) then some n else none := by
  simp [Config.repetitions?, whole]

-- An exponent that is expanded already is repeated as often as the expansion repeats it.
theorem unrolled?_of_fullyExpanded (full : FullyExpanded config exponent) :
    config.unrolled? exponent = config.repetitions? exponent := by
  by_cases natural : ∃ n, ExpandsToNatural config exponent n
  · obtain ⟨n, value, expands, whole⟩ := natural
    obtain rfl := full.expands.unique expands
    rw [repetitions?_natural whole]
    split
    · rename_i small
      exact unrolled?_eq_some ⟨value, expands, whole⟩ (by simpa [Option.all_eq_true] using small)
    · rename_i beyond
      refine unrolled?_eq_none fun m natural => ?_
      obtain rfl := natural.unique ⟨value, expands, whole⟩
      simpa [Option.all_eq_true] using beyond
  · have none : config.repetitions? exponent = none := by
      refine Option.eq_none_iff_forall_ne_some.mpr fun n repeated => ?_
      obtain ⟨value, rfl, whole⟩ := repetitions?_eq_some repeated
      exact natural ⟨n, value, full.expands, whole⟩
    rw [none]
    exact unrolled?_eq_none fun n expands => absurd ⟨n, expands⟩ natural

namespace Expr

theorem termCount_power {base : Expr} (expands : Expands config exponent r) :
    (power base exponent).termCount config =
      match config.repetitions? r with
      | some n => base.termCount config ^ n
      | none => 1 := by
  rw [termCount, unrolled?_of_expands expands, unrolled?_of_fullyExpanded expands.fullyExpanded]

end Expr

namespace Nary

variable {op : Nary}

theorem tally_singleton (n : ℕ) : op.tally [n] = n := by
  cases op <;> simp [tally]

theorem tally_append_congr {ms ns ms' ns' : List ℕ} (left : op.tally ms = op.tally ms')
    (right : op.tally ns = op.tally ns') : op.tally (ms ++ ns) = op.tally (ms' ++ ns') := by
  cases op with
  | sum => simpa [tally] using congrArg₂ (· + ·) left right
  | product => simpa [tally] using congrArg₂ (· * ·) left right

theorem tally_spliced (e : Expr) :
    op.tally ((e.spliced op).map (termCount config)) = e.termCount config := by
  by_cases own : e.kind = op.kind
  · obtain ⟨es, rfl⟩ := eq_nary_of_kind own
    rw [spliced_self, termCount_nary]
  · rw [spliced_of_kind_ne own, List.map_singleton, tally_singleton]

theorem tally_flatMap_spliced (es : List Expr) :
    op.tally ((es.flatMap (·.spliced op)).map (termCount config)) =
      op.tally (es.map (termCount config)) := by
  induction es with
  | nil => rfl
  | cons e es ih =>
    rw [List.flatMap_cons, List.map_append, List.map_cons, ← List.singleton_append]
    exact tally_append_congr ((tally_spliced e).trans (tally_singleton _).symm) ih

-- Only a sum of nothing has no terms, and is joined to the number 0, which is one.
theorem termCount_join (some : op = .sum → es ≠ []) (flat : ∀ e ∈ es, e.Flat) :
    (op.join es).termCount config = op.tally (es.map (termCount config)) := by
  have parts : op = .sum → es.flatMap (·.spliced op) ≠ [] := fun own =>
    flatMap_spliced_ne_nil (some own) flat
  rw [← tally_flatMap_spliced, join]
  generalize es.flatMap (·.spliced op) = parts' at parts
  cases parts' with
  | nil =>
    cases op with
    | sum => exact absurd rfl (parts rfl)
    | product => exact termCount_ofInt 1
  | cons first rest =>
    cases rest with
    | nil => exact (tally_singleton _).symm
    | cons => exact termCount_nary

theorem termCount_join_product (flat : ∀ e ∈ es, e.Flat) :
    (product.join es).termCount config = (es.map (termCount config)).prod :=
  termCount_join (fun own => nomatch own) flat

end Nary

-- What is fully expanded is one term, unless it is a sum.
theorem Expr.FullyExpanded.termCount_eq_one (full : FullyExpanded config e)
    (other : e.kind ≠ .sum) : e.termCount config = 1 := by
  induction e with
  | number | symbol => simp
  | nary op es ih =>
    cases op with
    | sum => exact absurd rfl other
    | product =>
      have each : ∀ e ∈ es, e.termCount config = 1 := fun e member =>
        ih e member (full.operand member) (full.factor_kind member)
      rw [termCount_nary, Nary.tally, List.prod_eq_one]
      simpa using each
  | power base exponent =>
    have ofExponent : FullyExpanded config exponent := full.operand (by simp [operands])
    rw [termCount_power ofExponent.expands, repetitions?_eq_none.mpr full.everywhere.here]

theorem Expr.FullyExpanded.length_terms (full : FullyExpanded config e) :
    (e.spliced .sum).length = e.termCount config := by
  by_cases own : e.kind = .sum
  · obtain ⟨terms, rfl⟩ := eq_nary_of_kind own
    have each : ∀ term ∈ terms, term.termCount config = 1 := fun term member =>
      (full.operand member).termCount_eq_one ((flat_nary.mp full.flat).1.2 term member)
    rw [spliced_self, termCount_nary, Nary.tally, List.map_congr_left each]
    simp
  · rw [spliced_of_kind_ne own, full.termCount_eq_one own, List.length_singleton]

section

variable (below : ∀ {e r : Expr}, e.Flat → e.expandWithin config depth = .done r →
  r.termCount config = e.termCount config)

include below

-- Each term of the first sum brings as many terms as it has, times those of the other factors.
theorem distributed_termCount (flat : e.Flat)
    (distributed : Distributed (expandWithin config depth) e r) :
    r.termCount config = e.termCount config := by
  cases distributed with
  | same => rfl
  | @spread before terms after expanded each =>
    have flatFactors := (flat_nary.mp flat).2
    obtain ⟨⟨long, _⟩, flatTerms⟩ := flat_nary.mp (flatFactors (sum terms) (by simp))
    have counts : expanded.map (termCount config) = terms.map fun term =>
        ((before ++ after).map (termCount config)).prod * term.termCount config := by
      apply map_eq_of_pairs
      refine pairs_imp each fun term member r _ ran => ?_
      have parts : ∀ f ∈ before ++ after ++ [term], f.Flat := by
        intro f inside
        simp only [List.mem_append, List.mem_singleton] at inside
        rcases inside with (early | late) | rfl
        · exact flatFactors f (by simp [early])
        · exact flatFactors f (by simp [late])
        · exact flatTerms f member
      rw [below (Nary.join_flat parts) ran, Nary.termCount_join_product parts]
      simp [mul_assoc]
    have some : expanded ≠ [] := by
      have length := each.length_eq
      exact List.ne_nil_of_length_pos (by omega)
    have flatExpanded : ∀ r ∈ expanded, r.Flat := by
      intro r member
      obtain ⟨_, _, ran⟩ := pair_of_mem_right each member
      exact (expandWithin_fullyExpanded ran).flat
    rw [Nary.termCount_join (fun _ => some) flatExpanded, counts]
    simp only [Nary.tally, List.sum_map_mul_left, termCount_nary, List.map_append,
      List.map_cons, List.prod_append, List.prod_cons]
    ring

theorem multipliedOut_termCount (flat : e.Flat)
    (operands : ∀ o ∈ e.operands, FullyExpanded config o)
    (joined : MultipliedOut config (expandWithin config depth) e r) :
    r.termCount config = e.termCount config := by
  cases joined with
  | kept => rfl
  | distributed _ distributed => exact distributed_termCount below flat distributed
  | @unrolled base exponent _ count repeated distributed =>
    obtain ⟨flatBase, _⟩ := flat_power.mp flat
    have flatCopies : ∀ f ∈ List.replicate count base, f.Flat := by
      intro f member
      rwa [List.eq_of_mem_replicate member]
    rw [distributed_termCount below (Nary.join_flat flatCopies) distributed,
      Nary.termCount_join_product flatCopies,
      termCount_power (operands exponent (by simp [Expr.operands])).expands, repeated]
    simp

end

theorem expandWithin_termCount (flat : e.Flat)
    (run : e.expandWithin config depth = .done r) : r.termCount config = e.termCount config := by
  induction depth generalizing e r with
  | zero => cases run
  | succ depth ih =>
    cases expandStep_expanded run with
    | terminal => rfl
    | @nary op operands expanded _ each joined =>
      obtain ⟨⟨long, _⟩, flatOperands⟩ := flat_nary.mp flat
      have full : ∀ r ∈ expanded, FullyExpanded config r := by
        intro r member
        obtain ⟨_, _, ran⟩ := pair_of_mem_right each member
        exact expandWithin_fullyExpanded ran
      have some : expanded ≠ [] := by
        have length := each.length_eq
        exact List.ne_nil_of_length_pos (by omega)
      have same : expanded.map (termCount config) = operands.map (termCount config) := by
        apply map_eq_of_pairs
        exact pairs_imp each fun o member r _ ran =>
          ih (flatOperands o member) ran
      have ready := join_ready op full
      rw [multipliedOut_termCount ih ready.flat ready.below joined,
        Nary.termCount_join (fun _ => some) (fun r member => (full r member).flat), same,
        termCount_nary]
    | @power base exponent b x _ ofBase ofExponent joined =>
      obtain ⟨flatBase, flatExponent⟩ := flat_power.mp flat
      have ready := ready_power (expandWithin_fullyExpanded ofBase)
        (expandWithin_fullyExpanded ofExponent)
      rw [multipliedOut_termCount ih ready.flat ready.below joined,
        termCount_power (expandWithin_fullyExpanded ofExponent).expands,
        termCount_power (.of_run ofExponent), ih flatBase ofBase]

-- A flat tree is expanded to as many terms as it has when it is multiplied out: to a sum of them if they
-- are several, and to what is no sum if there is one.
theorem expand_termCount (config : Config) {t : Expr} (flat : t.Flat) :
    ∃ r, Expands config t r ∧ 0 < t.termCount config ∧
      (2 ≤ t.termCount config → ∃ terms, r = sum terms ∧ terms.length = t.termCount config) ∧
      (t.termCount config = 1 → r.kind ≠ .sum) := by
  obtain ⟨r, bound, ran⟩ := expands config t
  have run := ran bound (Nat.le_refl _)
  have full := expandWithin_fullyExpanded run
  have count := full.length_terms
  rw [expandWithin_termCount flat run] at count
  refine ⟨r, ⟨bound, ran⟩, ?_, fun several => ?_, fun one own => ?_⟩
  · exact count ▸ List.length_pos_iff.mpr full.flat.spliced_ne_nil
  · by_cases own : r.kind = .sum
    · obtain ⟨terms, rfl⟩ := eq_nary_of_kind own
      exact ⟨terms, rfl, by rw [← count, spliced_self]⟩
    · rw [spliced_of_kind_ne own, List.length_singleton] at count
      omega
  · obtain ⟨terms, rfl⟩ := eq_nary_of_kind own
    have long := (flat_nary.mp full.flat).1.1
    rw [spliced_self] at count
    omega

-- Of (x + y) ^ (2 ^ 1) * (x + 1 + y), and of x * (x + y) ^ -1.
theorem expand_termCount_of_square :
    let square := power (sum [symbol "x", symbol "y"]) (power two one)
    let t := product [square, sum [symbol "x", one, symbol "y"]]
    let u := product [symbol "x", power (sum [symbol "x", symbol "y"]) minusOne]
    (t.Flat ∧ t.termCount {} = 12 ∧
      ∃ terms, Expands {} t (sum terms) ∧ terms.length = 12) ∧
      u.Flat ∧ u.termCount {} = 1 ∧ ∃ r, Expands {} u r ∧ r.kind ≠ .sum := by
  intro square t u
  have flat : t.Flat := by decide
  have flat' : u.Flat := by decide
  have unrolled : (power two one).expandWithin {} 2 = .done two := by cbv
  have inverse : Expands {} minusOne minusOne := (FullyExpanded.ofInt (-1)).expands
  have twelve : t.termCount {} = 12 := by
    have repeated : ({} : Config).repetitions? two = some 2 := by cbv
    have ofOne : one.termCount {} = 1 := termCount_ofInt 1
    simp [t, square, Nary.tally, termCount_power (.of_run unrolled), repeated, ofOne]
  have single : u.termCount {} = 1 := by
    have kept : ({} : Config).repetitions? minusOne = none := by cbv
    simp [u, Nary.tally, termCount_power inverse, kept]
  obtain ⟨r, expands, _, several, _⟩ := expand_termCount {} flat
  obtain ⟨terms, rfl, length⟩ := several (by omega)
  obtain ⟨r', expands', _, _, alone⟩ := expand_termCount {} flat'
  exact ⟨⟨flat, twelve, terms, expands, length.trans twelve⟩,
    flat', single, r', expands', alone single⟩

end SymbolicArith
