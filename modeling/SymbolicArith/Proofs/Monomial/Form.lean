import Mathlib.Algebra.Order.Field.Power
import Mathlib.Algebra.Order.Ring.Rat
import SymbolicArith.Proofs.Linear.Form

-- Monomials: products of exact numbers, symbols and integer powers of symbols, in any order and
-- with any repetitions. Here the numbers are in canonical form; a tree with whole ratios is a
-- monomial if it is one with its numbers made anew. What a monomial denotes is read off it in
-- either form: a coefficient, and a degree in each symbol.
namespace SymbolicArith.Expr

inductive Elementary : Expr → Prop
  | number (q : ℚ) : Elementary (number (.exact q))
  | symbol (name : String) : Elementary (symbol name)
  | power (name : String) (n : ℤ) : Elementary (power (symbol name) (ofInt n))

-- A single factor, or a product of two or more.
inductive PowerProduct : Expr → Prop
  | factor {e : Expr} (elementary : e.Elementary) : PowerProduct e
  | product {factors : List Expr} (long : 2 ≤ factors.length) (each : ∀ f ∈ factors, f.Elementary) :
      PowerProduct (product factors)

theorem elementary_number {value : Literal} :
    Elementary (number value) ↔ Atom (number value) := by
  constructor
  · intro elementary
    cases elementary with
    | number q => exact .number q
  · intro atom
    cases atom with
    | number q => exact .number q

instance : DecidablePred Elementary
  | .number _ => decidable_of_iff _ elementary_number.symm
  | .symbol name => .isTrue (.symbol name)
  | .power (.symbol name) (.number (.whole n)) => .isTrue (.power name n)
  | .power (.symbol _) (.number (.ratio _)) | .power (.symbol _) (.number (.float _))
  | .power (.symbol _) (.symbol _) | .power (.symbol _) (.nary _ _)
  | .power (.symbol _) (.power _ _) => .isFalse nofun
  | .power (.number _) _ | .power (.nary _ _) _ | .power (.power _ _) _ => .isFalse nofun
  | .nary _ _ => .isFalse nofun

instance : DecidablePred PowerProduct
  | .product fs => decidable_of_iff (2 ≤ fs.length ∧ ∀ f ∈ fs, f.Elementary)
    ⟨fun ⟨long, each⟩ => .product long each, fun
      | .product long each => ⟨long, each⟩
      | .factor elementary => nomatch elementary⟩
  | .number value => decidable_of_iff (Elementary (.number value))
    ⟨.factor, fun | .factor elementary => elementary⟩
  | .symbol name => .isTrue (.factor (.symbol name))
  | .power base exponent => decidable_of_iff (Elementary (.power base exponent))
    ⟨.factor, fun | .factor elementary => elementary⟩
  | .sum _ => .isFalse fun | .factor elementary => nomatch elementary

-- The symbol of a factor that is no number, and the exponent that a factor has for a symbol.
def base? : Expr → Option String
  | .symbol name | .power (.symbol name) _ => some name
  | _ => none

def exponentOf (name : String) : Expr → ℤ
  | .symbol own => if own = name then 1 else 0
  | .power (.symbol own) (.number value) => if own = name then value.integer?.getD 0 else 0
  | _ => 0

def degree (e : Expr) (name : String) : ℤ := (e.factors.map (exponentOf name)).sum

variable {e f : Expr} {fs : List Expr} {rho : String → ℚ} {b : ℚ}

@[simp] theorem scale_power : scale (power base exponent :: fs) = scale fs := rfl

@[simp] theorem exponentOf_power (n : ℤ) :
    exponentOf name (power (symbol own) (ofInt n)) = if own = name then n else 0 := rfl

theorem exponentOf_eq_zero (other : f.base? ≠ some name) : exponentOf name f = 0 := by
  unfold exponentOf
  split <;> simp_all [base?]

theorem exponentOf_remade (name : String) (f : Expr) :
    exponentOf name f.remade = exponentOf name f := by
  cases f with
  | number | symbol | nary => simp [exponentOf]
  | power base exponent =>
    cases base with
    | number | nary | power => simp [exponentOf]
    | symbol own => cases exponent <;> simp [exponentOf, Literal.integer?_remade]

theorem degree_remade (e : Expr) (name : String) : e.remade.degree name = e.degree name := by
  simp [degree, Function.comp_def, exponentOf_remade]

namespace Elementary

theorem kind_ne (elementary : f.Elementary) (op : Nary) : f.kind ≠ op.kind := by
  cases elementary with
  | number | symbol | power => exact nofun

theorem factors (elementary : f.Elementary) : f.factors = [f] := by
  cases elementary with
  | number | symbol | power => rfl

theorem exact (elementary : f.Elementary) : f.Exact := by
  cases elementary with
  | number q => exact exact_number.mpr ⟨q, Literal.rational?_exact q⟩
  | symbol => simp [ExactNode]
  | power name n => exact exact_power.mpr ⟨everywhere_symbol.mpr trivial, exact_ofInt n⟩

theorem regular (elementary : f.Elementary) (nonzero : ∀ name, rho name ≠ 0) :
    f.Regular rho := by
  have symbols : ∀ name, (Expr.symbol name).Regular rho := fun name =>
    ⟨everywhere_symbol.mpr trivial, everywhere_symbol.mpr trivial⟩
  cases elementary with
  | number q =>
    exact ⟨exact_number.mpr ⟨q, Literal.rational?_exact q⟩, everywhere_number.mpr trivial⟩
  | symbol name => exact symbols name
  | power name n =>
    exact Regular.power.mpr ⟨symbols name, .ofInt n, n, by simp, fun _ => nonzero name⟩

theorem eq_number (elementary : f.Elementary) (none : f.base? = none) :
    ∃ q, f = .number (.exact q) := by
  cases elementary with
  | number q => exact ⟨q, rfl⟩
  | symbol | power => simp [base?] at none

end Elementary

namespace PowerProduct

theorem elementary (monomial : e.PowerProduct) : ∀ f ∈ e.factors, f.Elementary := by
  cases monomial with
  | factor elementary => simpa [elementary.factors] using elementary
  | product _ each => exact each

theorem factors_ne_nil (monomial : e.PowerProduct) : e.factors ≠ [] := by
  cases monomial with
  | factor elementary => simp [elementary.factors]
  | product long =>
    refine List.length_pos_iff.mp ?_
    simp only [Expr.factors]
    omega

theorem exact (monomial : e.PowerProduct) : e.Exact := by
  cases monomial with
  | factor elementary => exact elementary.exact
  | product _ each => exact exact_nary.mpr fun f member => (each f member).exact

theorem regular (monomial : e.PowerProduct) (nonzero : ∀ name, rho name ≠ 0) : e.Regular rho := by
  cases monomial with
  | factor elementary => exact elementary.regular nonzero
  | product _ each => exact Regular.nary.mpr fun f member => (each f member).regular nonzero

-- A product of two monomials has the factors of both.
theorem join_pair {u : Expr} (left : e.PowerProduct) (right : u.PowerProduct) :
    (Nary.product.join [e, u]).PowerProduct ∧
      (Nary.product.join [e, u]).factors = e.factors ++ u.factors := by
  have someE := List.length_pos_iff.mpr left.factors_ne_nil
  have someU := List.length_pos_iff.mpr right.factors_ne_nil
  have long : 2 ≤ (e.factors ++ u.factors).length := by
    rw [List.length_append]
    omega
  have joined : Nary.product.join [e, u] = Expr.product (e.factors ++ u.factors) := by
    simp [Nary.join, spliced_product, Nary.collect_of_two_le long]
  rw [joined]
  exact ⟨.product long (List.forall_mem_append.mpr ⟨left.elementary, right.elementary⟩), rfl⟩

end PowerProduct

-- One symbol is read as this number, and all others as 1.
def probe (name : String) (b : ℚ) (other : String) : ℚ := if other = name then b else 1

theorem probe_ne_zero (nonzero : b ≠ 0) (other : String) : probe name b other ≠ 0 := by
  unfold probe
  split
  · exact nonzero
  · exact one_ne_zero

theorem elementary_value (nonzero : b ≠ 0) (each : ∀ f ∈ fs, f.Elementary) :
    (fs.map (value (probe name b))).prod = scale fs * b ^ (fs.map (exponentOf name)).sum := by
  induction fs with
  | nil => simp
  | cons f fs ih =>
    have rest := ih fun g member => each g (by simp [member])
    have first := each f (by simp)
    rw [List.map_cons, List.prod_cons, rest, List.map_cons, List.sum_cons, zpow_add₀ nonzero]
    cases first with
    | number q =>
      simp [exponentOf]
      ring
    | symbol own =>
      by_cases same : own = name
      · simp [exponentOf, probe, same]
        ring
      · simp [exponentOf, probe, same]
    | power own n =>
      by_cases same : own = name
      · simp [probe, same]
        ring
      · simp [probe, same]

theorem PowerProduct.value_probe (monomial : e.PowerProduct) (name : String) (nonzero : b ≠ 0) :
    e.value (probe name b) = scale e.factors * b ^ e.degree name := by
  rw [← factors_value, elementary_value nonzero monomial.elementary, degree]

-- The same coefficient, and unless that is 0 the same degree in each symbol.
def Alike (e u : Expr) : Prop :=
  scale e.factors = scale u.factors ∧ (scale e.factors = 0 ∨ ∀ name, e.degree name = u.degree name)

theorem Alike.mul {u v : Expr} (alike : Alike e u) (left : e.PowerProduct) (right : u.PowerProduct)
    (other : v.PowerProduct) : Alike (Nary.product.join [e, v]) (Nary.product.join [u, v]) := by
  obtain ⟨scales, degrees⟩ := alike
  unfold Alike degree
  rw [(left.join_pair other).2, (right.join_pair other).2, scale_append, scale_append, scales]
  refine ⟨rfl, degrees.imp (fun none => ?_) fun same name => ?_⟩
  · rw [← scales, none, zero_mul]
  · simp only [List.map_append, List.sum_append]
    exact congrArg (· + _) (same name)

theorem PowerProduct.alike_of_value {u : Expr} (left : e.PowerProduct) (right : u.PowerProduct)
    (same : ∀ rho, (∀ name, rho name ≠ 0) → e.value rho = u.value rho) : Alike e u := by
  have probed : ∀ (name : String) (b : ℚ), b ≠ 0 →
      scale e.factors * b ^ e.degree name = scale u.factors * b ^ u.degree name := by
    intro name b nonzero
    have values := same (probe name b) (probe_ne_zero nonzero)
    rwa [left.value_probe name nonzero, right.value_probe name nonzero] at values
  have scales : scale e.factors = scale u.factors := by simpa using probed "" 1 one_ne_zero
  refine ⟨scales, or_iff_not_imp_left.mpr fun some name => ?_⟩
  have powers := probed name 2 two_ne_zero
  rw [← scales] at powers
  exact zpow_right_injective₀ two_pos (by norm_num) (mul_left_cancel₀ some powers)

end SymbolicArith.Expr
