import Mathlib.Algebra.BigOperators.Group.List.Basic
import Mathlib.Algebra.Field.Rat
import SymbolicArith.Proofs.Expr.Shape

-- Values of trees in the rationals, for an assignment of rationals to symbols. Powers are read by a
-- function that is left open; where every exponent is an integer, and positive if its base is
-- zero, they are the powers of the rationals.
namespace SymbolicArith

-- The value of a sum or product of these operands; an empty one has the value of the identity.
def Nary.total : Nary → List ℚ → ℚ
  | .sum, qs => qs.sum
  | .product, qs => qs.prod

namespace Expr

mutual

def valueWith (pow : ℚ → ℚ → ℚ) (rho : String → ℚ) : Expr → ℚ
  -- floats have no value here; every statement about values excludes them
  | .number value => value.rational?.getD 0
  | .symbol name => rho name
  | .nary op operands => op.total (valuesWith pow rho operands)
  | .power base exponent => pow (base.valueWith pow rho) (exponent.valueWith pow rho)

def valuesWith (pow : ℚ → ℚ → ℚ) (rho : String → ℚ) : List Expr → List ℚ
  | [] => []
  | e :: es => e.valueWith pow rho :: valuesWith pow rho es

end

def integerPower (base exponent : ℚ) : ℚ := base ^ exponent.num

def value (rho : String → ℚ) : Expr → ℚ := valueWith integerPower rho

-- What a power needs to have a value: an integer exponent, and no zero base unless it is positive.
def DefinedNode (rho : String → ℚ) : Expr → Prop
  | .power base exponent => ∃ n : ℤ, exponent.value rho = n ∧ (n ≤ 0 → base.value rho ≠ 0)
  | _ => True

abbrev Defined (rho : String → ℚ) : Expr → Prop := Everywhere (DefinedNode rho)

section

variable {pow : ℚ → ℚ → ℚ} {rho : String → ℚ} {es : List Expr} {op : Nary}

theorem valuesWith_eq_map : valuesWith pow rho es = es.map (valueWith pow rho) := by
  induction es with
  | nil => rfl
  | cons e es ih => rw [valuesWith, ih, List.map_cons]

theorem valueWith_number {literal : Literal} (is : literal.rational? = some q) :
    (number literal).valueWith pow rho = q := by
  simp [valueWith, is]
@[simp] theorem valueWith_exact : (number (.exact q)).valueWith pow rho = q :=
  valueWith_number (Literal.rational?_exact q)
@[simp] theorem valueWith_ofInt (n : Int) : (ofInt n).valueWith pow rho = n :=
  valueWith_number rfl
@[simp] theorem valueWith_nary :
    (nary op es).valueWith pow rho = op.total (es.map (valueWith pow rho)) := by
  simp [valueWith, valuesWith_eq_map]
@[simp] theorem valueWith_power : (power base exponent).valueWith pow rho =
    pow (base.valueWith pow rho) (exponent.valueWith pow rho) := by
  simp [valueWith]

theorem value_number {literal : Literal} (is : literal.rational? = some q) :
    (number literal).value rho = q := valueWith_number is
@[simp] theorem value_ratio : (number (.ratio q)).value rho = q := value_number rfl
@[simp] theorem value_exact : (number (.exact q)).value rho = q := valueWith_exact
@[simp] theorem value_symbol : (symbol name).value rho = rho name := by simp [value, valueWith]
@[simp] theorem value_ofInt (n : Int) : (ofInt n).value rho = n := valueWith_ofInt n
@[simp] theorem value_nary : (nary op es).value rho = op.total (es.map (value rho)) := valueWith_nary
@[simp] theorem value_power : (power base exponent).value rho =
    base.value rho ^ (exponent.value rho).num := valueWith_power

end

end Expr

namespace Nary

open SymbolicArith.Expr

variable {pow : ℚ → ℚ → ℚ} {rho : String → ℚ} {op : Nary} {es : List Expr}

theorem total_append (ps qs : List ℚ) :
    op.total (ps ++ qs) = op.total [op.total ps, op.total qs] := by
  cases op with
  | sum => simp [total, List.sum_append]
  | product => simp [total, List.prod_append]

theorem total_cons (q : ℚ) (qs : List ℚ) : op.total (q :: qs) = op.total [q, op.total qs] := by
  cases op <;> simp [total]

theorem total_perm (op : Nary) {ps qs : List ℚ} (perm : ps.Perm qs) : op.total ps = op.total qs := by
  cases op with
  | sum => exact perm.sum_eq
  | product => exact perm.prod_eq

theorem total_spliced (e : Expr) :
    op.total ((e.spliced op).map (valueWith pow rho)) = e.valueWith pow rho := by
  by_cases own : e.kind = op.kind
  · obtain ⟨es, rfl⟩ := eq_nary_of_kind own
    rw [spliced_self, valueWith_nary]
  · rw [spliced_of_kind_ne own]
    cases op <;> simp [total]

theorem total_flatMap_spliced (es : List Expr) :
    op.total ((es.flatMap (·.spliced op)).map (valueWith pow rho)) =
      op.total (es.map (valueWith pow rho)) := by
  induction es with
  | nil => rfl
  | cons e es ih =>
    rw [List.flatMap_cons, List.map_append, total_append, total_spliced, ih, List.map_cons,
      ← total_cons]

theorem valueWith_collect (es : List Expr) :
    (op.collect es).valueWith pow rho = op.total (es.map (valueWith pow rho)) := by
  match es with
  | [] => cases op <;> simp [collect, identity, total]
  | [e] => cases op <;> simp [collect, total]
  | _ :: _ :: _ => simp [collect]

@[simp] theorem valueWith_join (es : List Expr) :
    (op.join es).valueWith pow rho = op.total (es.map (valueWith pow rho)) := by
  rw [join, valueWith_collect, total_flatMap_spliced]

@[simp] theorem value_join (es : List Expr) :
    (op.join es).value rho = op.total (es.map (value rho)) := valueWith_join es

theorem join_defined (defined : ∀ e ∈ es, e.Defined rho) : (op.join es).Defined rho :=
  join_everywhere (fun _ => trivial) (fun _ => trivial) defined

end Nary

namespace Expr

-- A tree with a value: without floats, and with every power defined.
structure Regular (rho : String → ℚ) (e : Expr) : Prop where
  exact : e.Exact
  defined : e.Defined rho

namespace Regular

variable {rho : String → ℚ} {x y : Expr} {es : List Expr} {op : Nary}

theorem ofInt (n : Int) : (Expr.ofInt n).Regular rho :=
  ⟨exact_ofInt n, by simp [Expr.ofInt, DefinedNode]⟩

theorem join (regular : ∀ e ∈ es, e.Regular rho) : (op.join es).Regular rho :=
  ⟨Nary.join_exact fun e member => (regular e member).exact,
    Nary.join_defined fun e member => (regular e member).defined⟩

theorem join_pair (op : Nary) (left : x.Regular rho) (right : y.Regular rho) :
    (op.join [x, y]).Regular rho :=
  join (by simp [left, right])

theorem nary : (Expr.nary op es).Regular rho ↔ ∀ e ∈ es, e.Regular rho := by
  constructor
  · intro regular e member
    exact ⟨regular.exact.operand member, regular.defined.operand member⟩
  · intro regular
    refine ⟨exact_nary.mpr fun e member => (regular e member).exact, ?_⟩
    exact everywhere_nary.mpr ⟨trivial, fun e member => (regular e member).defined⟩

theorem power : (Expr.power base exponent).Regular rho ↔ base.Regular rho ∧ exponent.Regular rho ∧
    ∃ n : ℤ, exponent.value rho = n ∧ (n ≤ 0 → base.value rho ≠ 0) := by
  constructor
  · rintro ⟨exact, defined⟩
    obtain ⟨exactBase, exactExponent⟩ := exact_power.mp exact
    obtain ⟨here, ofBase, ofExponent⟩ := everywhere_power.mp defined
    exact ⟨⟨exactBase, ofBase⟩, ⟨exactExponent, ofExponent⟩, here⟩
  · rintro ⟨ofBase, ofExponent, here⟩
    exact ⟨exact_power.mpr ⟨ofBase.exact, ofExponent.exact⟩,
      everywhere_power.mpr ⟨here, ofBase.defined, ofExponent.defined⟩⟩

end Regular

end Expr

end SymbolicArith
