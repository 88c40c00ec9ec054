import SymbolicArith.Proofs.Expr.Mass
import SymbolicArith.Proofs.Reduction.Steps

open SymbolicArith.Expr Relation

-- What reductions do to the mass of a tree under the standard weights: no reduction adds to it.
-- What two nodes have in common is counted once, so neither the sum of what they have left nor the
-- factored form outweighs the plain sum of the two.
namespace SymbolicArith

namespace Engine

variable {engine : Engine Outcome} {op : Operator} {x y e r : Expr} {xs ys taken : List Expr}
  {found : Split}

theorem lighter_iff (standard : engine.config.Standard) :
    engine.lighter x y ↔ x.mass < y.mass := by
  simp [lighter, weight, weight_eq_mass standard]

theorem Splits.massesX (splits : Splits engine xs ys found taken) :
    masses found.common + masses found.restX = masses xs := by
  simpa using masses_perm splits.left

theorem Splits.massesY (splits : Splits engine xs ys found taken) :
    masses taken + masses found.restY = masses ys := by
  simpa using masses_perm splits.right

theorem rests_mass_le (found : Split) :
    found.rests.mass ≤
      1 + ((Nary.product.join found.restX).mass + (Nary.product.join found.restY).mass) :=
  Nary.sum.mass_join_pair_le _ _

theorem factored_mass_le (reduced : Expr) (some : found.common ≠ []) :
    (found.factored reduced).mass ≤ 1 + (reduced.mass + masses found.common) := by
  have collected : (found.factored reduced).mass ≤ _ := Nary.product.mass_collect_le _
  have spliced := Nary.product.masses_spliced_pair_le reduced some
  omega

theorem view_operand_mass_le (member : o ∈ (viewedAs .product x).operands) : o.mass ≤ x.mass := by
  by_cases own : x.kind = .product
  · rw [viewedAs_own own] at member
    exact Nat.le_of_lt (operand_mass_lt member)
  · rw [viewedAs_product own] at member
    simp only [operands, List.mem_cons, List.not_mem_nil, or_false] at member
    rcases member with rfl | rfl
    · exact Nat.le_refl _
    · exact mass_pos x

theorem view_power_mass (view : viewedAs .power x = .power base exponent) :
    base.mass ≤ x.mass ∧ exponent.mass ≤ x.mass ∧
      (x.kind = .power → exponent.mass + 2 ≤ x.mass) := by
  rcases viewedAs_power_cases view with rfl | ⟨other, rfl, rfl⟩
  · have positive := mass_pos base
    simp only [mass_power]
    omega
  · have positive := mass_pos base
    simp only [one, mass_ofInt]
    exact ⟨Nat.le_refl _, positive, fun own => absurd own other⟩

-- Viewing an operand as a product adds one number for the whole view, which is made up for as soon
-- as a factor is taken out: a single rest is no product any more.
theorem view_rest_mass_le {common rest : List Expr} (some : common ≠ [])
    (perm : (common ++ rest).Perm (viewedAs .product x).operands) :
    (Nary.product.join rest).mass + masses common ≤
      x.mass + if x.kind = .product then 0 else common.length := by
  have total := masses_perm perm
  rw [masses_append] at total
  have joined := Nary.product.mass_join_le rest
  by_cases own : x.kind = .product
  · obtain ⟨xs, rfl⟩ := eq_nary_of_kind own
    rw [viewedAs_own own] at total
    simp only [operands] at total
    simp only [own, if_true, mass_nary]
    omega
  · have length := perm.length_eq
    rw [viewedAs_product own] at total length
    simp only [operands, masses_cons, masses_nil, one, mass_ofInt, List.length_append,
      List.length_cons, List.length_nil] at total length
    have long := List.length_pos_iff.mpr some
    simp only [own, if_false]
    have parts := length_le_masses rest
    by_cases short : rest.length ≤ 1
    · have single := Nary.product.mass_join_short short
      omega
    · omega

theorem Splits.mass_le (some : found.common ≠ [])
    (splits : Splits engine (viewedAs .product x).operands (viewedAs .product y).operands found
      taken) :
    (Nary.product.join found.restX).mass + (Nary.product.join found.restY).mass +
        masses found.common + masses taken ≤ x.mass + y.mass +
      ((if x.kind = .product then 0 else taken.length) +
        if y.kind = .product then 0 else taken.length) := by
  have length := splits.paired.length_eq
  have long := List.length_pos_iff.mpr some
  have someTaken : taken ≠ [] := List.length_pos_iff.mp (by omega)
  have ofX := view_rest_mass_le some splits.left
  have ofY := view_rest_mass_le someTaken splits.right
  rw [length] at ofX
  omega

theorem Splits.mass_bounds (own : x.kind = .product ∨ y.kind = .product)
    (some : found.common ≠ [])
    (splits : Splits engine (viewedAs .product x).operands (viewedAs .product y).operands found
      taken) :
    (Nary.product.join found.restX).mass + (Nary.product.join found.restY).mass < x.mass + y.mass ∧
      (Nary.product.join found.restX).mass + (Nary.product.join found.restY).mass +
        masses found.common ≤ x.mass + y.mass := by
  have bound := splits.mass_le some
  have length := splits.paired.length_eq
  have long := List.length_pos_iff.mpr some
  have common := length_le_masses found.common
  have others := length_le_masses taken
  have one : (if x.kind = .product then 0 else taken.length) +
      (if y.kind = .product then 0 else taken.length) ≤ taken.length := by
    rcases own with own | own
    · simp only [own, if_true]
      split <;> omega
    · simp only [own, if_true]
      split <;> omega
  omega

theorem merge_mass_lt (standard : engine.config.Standard)
    (accepted : engine.merge op x y = .done (some r)) : r.mass < (op.plain x y).mass :=
  (lighter_iff standard).mp (merge_some accepted).2

theorem Merges.masses_le (standard : engine.config.Standard) (step : Merges engine op xs ys) :
    masses ys ≤ masses xs := by
  cases step with
  | @merge x y merged before between after accepted =>
    have lighter := merge_mass_lt standard accepted
    have plain := op.mass_plain_le x y
    simp only [masses_append, masses_cons]
    omega

theorem pass_masses_le (standard : engine.config.Standard)
    (run : ReflTransGen (Merges engine op) xs ys) : masses ys ≤ masses xs := by
  induction run with
  | refl => exact Nat.le_refl _
  | tail _ step ih => exact Nat.le_trans (step.masses_le standard) ih

def NeverGrows (engine : Engine Outcome) : Prop :=
  ∀ e r, engine.reduce e = .done r → r.mass ≤ e.mass

theorem NeverGrows.operands (never : engine.NeverGrows)
    (below : List.Forall₂ (fun e r => engine.reduce e = .done r) xs ys) :
    masses ys ≤ masses xs := by
  induction below with
  | nil => exact Nat.le_refl _
  | cons ran _ ih =>
    have first := never _ _ ran
    simp only [masses_cons]
    omega

theorem NeverGrows.reduced (never : engine.NeverGrows) (standard : engine.config.Standard)
    (reduced : Reduced engine e r) : r.mass ≤ e.mass := by
  cases reduced with
  | terminal => exact Nat.le_refl _
  | @nary op operands reduced rest below pass =>
    have ofOperands := never.operands below
    have ofPass := pass_masses_le standard pass.merges
    have joined := op.mass_join_le rest
    rw [mass_nary]
    omega
  | power ofBase ofExponent _ =>
    have base := never _ _ ofBase
    have exponent := never _ _ ofExponent
    simp only [mass_power]
    omega
  | merged ofBase ofExponent accepted =>
    have base := never _ _ ofBase
    have exponent := never _ _ ofExponent
    have merged := merge_mass_lt standard accepted
    simp only [Operator.plain, mass_power] at merged ⊢
    omega

theorem within_neverGrows {config : Config} (standard : config.Standard) (depth : Nat) :
    (within config depth).NeverGrows := by
  induction depth with
  | zero => exact fun _ _ => nofun
  | succ depth ih =>
    intro e r run
    exact ih.reduced (by simpa using standard) (reduceStep_reduced run)

end Engine
end SymbolicArith
