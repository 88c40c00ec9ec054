import Mathlib.Tactic.Ring
import SymbolicArith.Proofs.Expr.Recasting
import SymbolicArith.Proofs.Expr.Value

-- Linear expressions: sums of terms, each a product of exact numbers and of at most one symbol.
-- Here the numbers are in canonical form; a tree with whole ratios is linear if it is so with its
-- numbers made anew. What such an expression denotes is read off it in either form: a constant,
-- and a coefficient for each symbol.
namespace SymbolicArith

namespace Expr

inductive Atom : Expr → Prop
  | number (q : ℚ) : Atom (number (.exact q))
  | symbol (name : String) : Atom (symbol name)

def number? : Expr → Option ℚ
  | .number value => value.rational?
  | _ => none

def symbol? : Expr → Option String
  | .symbol name => some name
  | _ => none

-- The symbols among factors, and the product of the numbers among them.
def names (factors : List Expr) : List String := factors.filterMap symbol?
def scale (factors : List Expr) : ℚ := (factors.filterMap number?).prod

def factors : Expr → List Expr
  | .product factors => factors
  | e => [e]

def terms : Expr → List Expr
  | .sum terms => terms
  | e => [e]

structure Monomial (factors : List Expr) : Prop where
  atoms : ∀ f ∈ factors, f.Atom
  single : (names factors).length ≤ 1

inductive Term : Expr → Prop
  | atom {e : Expr} (atom : e.Atom) : Term e
  | product {factors : List Expr} (long : 2 ≤ factors.length) (monomial : Monomial factors) :
      Term (product factors)

inductive Linear : Expr → Prop
  | term {e : Expr} (term : e.Term) : Linear e
  | sum {terms : List Expr} (long : 2 ≤ terms.length) (each : ∀ t ∈ terms, t.Term) :
      Linear (sum terms)

theorem atom_number {value : Literal} :
    Atom (number value) ↔ value.Canonical ∧ value.rational?.isSome := by
  constructor
  · intro atom
    cases atom with
    | number q => exact ⟨Literal.canonical_exact q, by rw [Literal.rational?_exact]; rfl⟩
  · rintro ⟨canonical, some⟩
    obtain ⟨q, is⟩ := Option.isSome_iff_exists.mp some
    exact canonical.eq_exact is ▸ .number q

instance : DecidablePred Atom
  | .number _ => decidable_of_iff _ atom_number.symm
  | .symbol name => .isTrue (.symbol name)
  | .nary _ _ | .power _ _ => .isFalse nofun

instance : DecidablePred Monomial := fun fs =>
  decidable_of_iff ((∀ f ∈ fs, f.Atom) ∧ (names fs).length ≤ 1)
    ⟨fun ⟨atoms, single⟩ => ⟨atoms, single⟩, fun ⟨atoms, single⟩ => ⟨atoms, single⟩⟩

instance : DecidablePred Term
  | .product fs => decidable_of_iff (2 ≤ fs.length ∧ Monomial fs)
    ⟨fun ⟨long, monomial⟩ => .product long monomial,
      fun | .product long monomial => ⟨long, monomial⟩⟩
  | .number value => decidable_of_iff (Atom (.number value)) ⟨.atom, fun | .atom atom => atom⟩
  | .symbol name => .isTrue (.atom (.symbol name))
  | .sum _ | .power _ _ => .isFalse fun | .atom atom => nomatch atom

instance : DecidablePred Linear
  | .sum ts => decidable_of_iff (2 ≤ ts.length ∧ ∀ t ∈ ts, t.Term)
    ⟨fun ⟨long, each⟩ => .sum long each, fun
      | .sum long each => ⟨long, each⟩
      | .term (.atom atom) => nomatch atom⟩
  | .product fs => decidable_of_iff (Term (.product fs)) ⟨.term, fun | .term term => term⟩
  | .number value => decidable_of_iff (Term (.number value)) ⟨.term, fun | .term term => term⟩
  | .symbol name => .isTrue (.term (.atom (.symbol name)))
  | .power _ _ => .isFalse fun | .term (.atom atom) => nomatch atom

-- What the terms with exactly these symbols add up to.
def total (symbols : List String) (e : Expr) : ℚ :=
  ((e.terms.filter fun t => names t.factors = symbols).map fun t => scale t.factors).sum

def constant (e : Expr) : ℚ := e.total []
def coefficient (e : Expr) (name : String) : ℚ := e.total [name]

variable {rho : String → ℚ} {e t : Expr} {fs ts : List Expr}

@[simp] theorem names_nil : names [] = [] := rfl
@[simp] theorem names_number {literal : Literal} : names (number literal :: fs) = names fs := rfl
@[simp] theorem names_symbol : names (symbol name :: fs) = name :: names fs := rfl
@[simp] theorem names_append {gs : List Expr} : names (fs ++ gs) = names fs ++ names gs :=
  List.filterMap_append

@[simp] theorem scale_nil : scale [] = 1 := rfl
@[simp] theorem scale_number : scale (number (.exact q) :: fs) = q * scale fs := by
  simp [scale, number?]
@[simp] theorem scale_whole (n : ℤ) : scale (number (.whole n) :: fs) = n * scale fs :=
  List.prod_cons
@[simp] theorem scale_ratio (q : ℚ) : scale (number (.ratio q) :: fs) = q * scale fs :=
  List.prod_cons
@[simp] theorem scale_symbol : scale (symbol name :: fs) = scale fs := rfl

@[simp] theorem scale_append {gs : List Expr} : scale (fs ++ gs) = scale fs * scale gs := by
  simp [scale]

theorem names_perm {gs : List Expr} (perm : fs.Perm gs) : (names fs).Perm (names gs) :=
  perm.filterMap symbol?

@[simp] theorem factors_remade (e : Expr) : e.remade.factors = e.factors.map remade := by
  cases e with
  | number | symbol | power => simp [factors]
  | nary op es => cases op <;> simp [factors]

@[simp] theorem terms_remade (e : Expr) : e.remade.terms = e.terms.map remade := by
  cases e with
  | number | symbol | power => simp [terms]
  | nary op es => cases op <;> simp [terms]

@[simp] theorem names_remade (fs : List Expr) : names (fs.map remade) = names fs := by
  have each : symbol? ∘ remade = symbol? := by
    funext f
    cases f <;> simp [symbol?]
  rw [names, List.filterMap_map, each, names]

@[simp] theorem scale_remade (fs : List Expr) : scale (fs.map remade) = scale fs := by
  have each : number? ∘ remade = number? := by
    funext f
    cases f <;> simp [number?]
  rw [scale, List.filterMap_map, each, scale]

theorem total_remade (symbols : List String) (e : Expr) :
    e.remade.total symbols = e.total symbols := by
  simp [total, List.filter_map, Function.comp_def]

theorem constant_remade (e : Expr) : e.remade.constant = e.constant := total_remade [] e

theorem coefficient_remade (e : Expr) (name : String) :
    e.remade.coefficient name = e.coefficient name :=
  total_remade [name] e

namespace Atom

theorem exact (atom : e.Atom) : e.Exact := by
  cases atom with
  | number q => exact exact_number.mpr ⟨q, Literal.rational?_exact q⟩
  | symbol => simp [ExactNode]

theorem terminal (atom : e.Atom) : e.isTerminal := by
  cases atom with
  | number | symbol => rfl

theorem kind_ne (atom : e.Atom) (op : Operator) : e.kind ≠ op.kind := by
  cases atom with
  | number | symbol => exact nofun

theorem factors (atom : e.Atom) : e.factors = [e] := by
  cases atom with
  | number | symbol => rfl

theorem terms (atom : e.Atom) : e.terms = [e] := by
  cases atom with
  | number | symbol => rfl

theorem monomial (atom : e.Atom) : Monomial [e] := by
  refine ⟨by simpa using atom, ?_⟩
  cases atom with
  | number | symbol => simp

end Atom

theorem Monomial.perm {gs : List Expr} (monomial : Monomial fs) (perm : gs.Perm fs) :
    Monomial gs := by
  refine ⟨fun f member => monomial.atoms f (perm.subset member), ?_⟩
  rw [(names_perm perm).length_eq]
  exact monomial.single

theorem Monomial.sublist {gs : List Expr} (monomial : Monomial fs) (order : gs.Sublist fs) :
    Monomial gs := by
  refine ⟨fun f member => monomial.atoms f (order.subset member), ?_⟩
  exact Nat.le_trans (order.filterMap symbol?).length_le monomial.single

theorem Monomial.numbers (monomial : Monomial fs) (none : names fs = []) :
    ∀ f ∈ fs, ∃ q, f.IsNumber q := by
  intro f member
  cases monomial.atoms f member with
  | number q => exact ⟨q, isNumber_exact q⟩
  | symbol name =>
    have named : name ∈ names fs := List.mem_filterMap.mpr ⟨symbol name, member, rfl⟩
    simp [none] at named

theorem Monomial.collect_term (monomial : Monomial fs) : (Nary.product.collect fs).Term := by
  match fs with
  | [] => exact .atom (.number 1)
  | [f] => exact .atom (monomial.atoms f (by simp))
  | _ :: _ :: _ => exact .product (by simp) monomial

theorem Monomial.factors_collect (monomial : Monomial fs) (some : fs ≠ []) :
    (Nary.product.collect fs).factors = fs := by
  match fs with
  | [] => exact absurd rfl some
  | [f] => exact (monomial.atoms f (by simp)).factors
  | _ :: _ :: _ => rfl

theorem Monomial.collect_atom (monomial : Monomial fs) (short : fs.length ≤ 1) :
    (Nary.product.collect fs).Atom ∧ names [Nary.product.collect fs] = names fs := by
  match fs with
  | [] => exact ⟨.number 1, rfl⟩
  | [f] => exact ⟨monomial.atoms f (by simp), rfl⟩
  | _ :: _ :: _ => simp at short

theorem Monomial.join_eq (monomial : Monomial fs) :
    Nary.product.join fs = Nary.product.collect fs := by
  rw [Nary.join, flatMap_spliced_of_kind_ne]
  exact fun f member => (monomial.atoms f member).kind_ne .product

namespace Term

theorem monomial (term : t.Term) : Monomial t.factors := by
  cases term with
  | atom atom => exact atom.factors ▸ atom.monomial
  | product _ monomial => exact monomial

theorem terms (term : t.Term) : t.terms = [t] := by
  cases term with
  | atom atom => exact atom.terms
  | product => rfl

theorem kind_ne_sum (term : t.Term) : t.kind ≠ .sum := by
  cases term with
  | atom atom => exact atom.kind_ne .sum
  | product => exact product_kind_ne_sum

theorem atom_of_kind (term : t.Term) (other : t.kind ≠ .product) : t.Atom := by
  cases term with
  | atom atom => exact atom
  | product => exact absurd rfl other

theorem exact (term : t.Term) : t.Exact := by
  cases term with
  | atom atom => exact atom.exact
  | product _ monomial => exact exact_nary.mpr fun f member => (monomial.atoms f member).exact

end Term

-- A term of two factors at most, as a reduction leaves it.
structure Short (t : Expr) : Prop where
  term : t.Term
  short : t.factors.length ≤ 2

theorem Atom.short (atom : e.Atom) : e.Short := ⟨.atom atom, by simp [atom.factors]⟩

theorem Monomial.collect_short (monomial : Monomial fs) (short : fs.length ≤ 2) :
    (Nary.product.collect fs).Short := by
  refine ⟨monomial.collect_term, ?_⟩
  match fs with
  | [] => exact (Atom.number 1).short.short
  | f :: fs => rwa [monomial.factors_collect (List.cons_ne_nil f fs)]

structure Condensed (e : Expr) : Prop where
  linear : e.Linear
  short : ∀ t ∈ e.terms, t.Short

theorem Short.condensed (short : e.Short) : e.Condensed :=
  ⟨.term short.term, by simpa [short.term.terms] using short⟩

theorem spliced_sum (e : Expr) : e.spliced .sum = e.terms := by
  cases e with
  | number | symbol | power => rfl
  | nary op es => cases op <;> rfl

theorem spliced_product (e : Expr) : e.spliced .product = e.factors := by
  cases e with
  | number | symbol | power => rfl
  | nary op es => cases op <;> rfl

theorem join_terms (each : ∀ t ∈ ts, t.Term) : Nary.sum.join ts = Nary.sum.collect ts := by
  rw [Nary.join, flatMap_spliced_of_kind_ne]
  exact fun t member => (each t member).kind_ne_sum

namespace Linear

theorem exact (linear : e.Linear) : e.Exact := by
  cases linear with
  | term term => exact term.exact
  | sum _ each => exact exact_nary.mpr fun t member => (each t member).exact

theorem terms (linear : e.Linear) : ∀ t ∈ e.terms, t.Term := by
  cases linear with
  | term term => simpa [term.terms] using term
  | sum _ each => exact each

theorem terms_ne_nil (linear : e.Linear) : e.terms ≠ [] := by
  cases linear with
  | term term => simp [term.terms]
  | sum long =>
    refine List.length_pos_iff.mp ?_
    simp only [Expr.terms]
    omega

theorem join_pair {u : Expr} (left : e.Linear) (right : u.Linear) :
    (Nary.sum.join [e, u]).Linear := by
  have someE := List.length_pos_iff.mpr left.terms_ne_nil
  have someU := List.length_pos_iff.mpr right.terms_ne_nil
  have long : 2 ≤ (e.terms ++ u.terms).length := by
    rw [List.length_append]
    omega
  have joined : Nary.sum.join [e, u] = Expr.sum (e.terms ++ u.terms) := by
    simp [Nary.join, spliced_sum, Nary.collect_of_two_le long]
  rw [joined]
  exact .sum long (List.forall_mem_append.mpr ⟨left.terms, right.terms⟩)

end Linear

theorem monomial_value (atoms : ∀ f ∈ fs, f.Atom) :
    (fs.map (value rho)).prod = scale fs * ((names fs).map rho).prod := by
  induction fs with
  | nil => simp
  | cons f fs ih =>
    have rest := ih fun g member => atoms g (by simp [member])
    have first := atoms f (by simp)
    cases first with
    | number q =>
      simp only [List.map_cons, List.prod_cons, rest, value_exact, scale_number, names_number]
      ring
    | symbol name =>
      simp only [List.map_cons, List.prod_cons, rest, scale_symbol, names_symbol]
      simp only [value, valueWith]
      ring

theorem factors_value (e : Expr) : (e.factors.map (value rho)).prod = e.value rho := by
  unfold factors
  split
  · simp [Nary.total]
  · simp

theorem terms_value (e : Expr) : (e.terms.map (value rho)).sum = e.value rho := by
  unfold terms
  split
  · simp [Nary.total]
  · simp

theorem Term.value_eq (term : t.Term) :
    t.value rho = scale t.factors * ((names t.factors).map rho).prod := by
  rw [← factors_value, monomial_value term.monomial.atoms]

theorem Monomial.names_cases (monomial : Monomial fs) :
    names fs = [] ∨ ∃ name, names fs = [name] := by
  have single := monomial.single
  generalize names fs = symbols at single
  match symbols with
  | [] => exact .inl rfl
  | [name] => exact .inr ⟨name, rfl⟩
  | _ :: _ :: _ => simp at single

-- Where all symbols are 0 only the constant is left.
theorem Linear.value_zero (linear : e.Linear) : e.value (fun _ => 0) = e.constant := by
  rw [← terms_value, constant, total]
  have each := linear.terms
  generalize e.terms = ts at each
  induction ts with
  | nil => rfl
  | cons t ts ih =>
    have first : t.value (fun _ => 0) = _ := (each t (by simp)).value_eq
    rw [List.map_cons, List.sum_cons, ih fun o member => each o (by simp [member]), first]
    rcases (each t (by simp)).monomial.names_cases with none | ⟨name, one⟩
    · simp [none]
    · simp [one]

-- Where one symbol is 1 and all others are 0 its coefficient is added.
theorem Linear.value_unit (linear : e.Linear) (name : String) :
    e.value (fun other => if other = name then 1 else 0) = e.constant + e.coefficient name := by
  rw [← terms_value, constant, coefficient, total, total]
  have each := linear.terms
  generalize e.terms = ts at each
  induction ts with
  | nil => simp
  | cons t ts ih =>
    have first : t.value (fun other => if other = name then 1 else 0) = _ :=
      (each t (by simp)).value_eq
    rw [List.map_cons, List.sum_cons, ih fun o member => each o (by simp [member]), first]
    rcases (each t (by simp)).monomial.names_cases with none | ⟨other, one⟩
    · simp [none]
      ring
    · by_cases same : other = name
      · simp [one, same]
        ring
      · simp [one, same]

theorem Linear.denotes_of_value {u : Expr} (left : e.Linear) (right : u.Linear)
    (same : ∀ rho, e.value rho = u.value rho) :
    e.constant = u.constant ∧ ∀ name, e.coefficient name = u.coefficient name := by
  have constants : e.constant = u.constant := by
    rw [← left.value_zero, ← right.value_zero, same]
  refine ⟨constants, fun name => ?_⟩
  have units := same fun other => if other = name then 1 else 0
  rw [left.value_unit, right.value_unit, constants] at units
  exact add_left_cancel units

end Expr

end SymbolicArith
