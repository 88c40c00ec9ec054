import SymbolicArith.Config
import SymbolicArith.Proofs.Expr.Shape

-- Weights under the standard configuration, in which a symbol weighs 1000 and a number and a node
-- weigh 1. Every tree then has a positive mass, and joining adds at most the mass of one node.
namespace SymbolicArith

-- The standard weights; the limits on exponents may be any.
structure Config.Standard (config : Config) : Prop where
  symbols : config.symbolWeight = 1000
  numbers : config.numberWeight = 1
  nodes : config.nodeWeight = 1

instance (config : Config) : Decidable config.Standard :=
  decidable_of_iff (config.symbolWeight = 1000 ∧ config.numberWeight = 1 ∧ config.nodeWeight = 1)
    ⟨fun ⟨symbols, numbers, nodes⟩ => ⟨symbols, numbers, nodes⟩, fun ⟨symbols, numbers, nodes⟩ =>
      ⟨symbols, numbers, nodes⟩⟩

namespace Expr

mutual

def mass : Expr → Nat
  | .number _ => 1
  | .symbol _ => 1000
  | .nary _ operands => 1 + masses operands
  | .power base exponent => 1 + (base.mass + exponent.mass)

def masses : List Expr → Nat
  | [] => 0
  | e :: es => e.mass + masses es

end

variable {e : Expr} {es xs ys : List Expr} {op : Nary} {config : Config}

@[simp] theorem mass_number {value : Literal} : (number value).mass = 1 := by rw [mass]
@[simp] theorem mass_symbol : (symbol name).mass = 1000 := by rw [mass]
@[simp] theorem mass_nary : (nary op es).mass = 1 + masses es := by rw [mass]
@[simp] theorem mass_power : (power base exponent).mass = 1 + (base.mass + exponent.mass) := by
  rw [mass]
@[simp] theorem mass_ofInt (n : Int) : (ofInt n).mass = 1 := mass_number
@[simp] theorem masses_nil : masses [] = 0 := by rw [masses]
@[simp] theorem masses_cons : masses (e :: es) = e.mass + masses es := by rw [masses]

theorem weights_eq_masses (each : ∀ e ∈ es, e.weight config = e.mass) :
    weights config es = masses es := by
  induction es with
  | nil => simp [weights]
  | cons e es ih =>
    rw [weights, each e (by simp), ih fun o member => each o (by simp [member])]
    simp

theorem weight_eq_mass (standard : config.Standard) (e : Expr) : e.weight config = e.mass := by
  induction e with
  | number value => simp [weight, standard.numbers]
  | symbol name => simp [weight, standard.symbols]
  | nary op es ih => simp [weight, standard.nodes, weights_eq_masses ih]
  | power base exponent ofBase ofExponent => simp [weight, standard.nodes, ofBase, ofExponent]

theorem mass_pos (e : Expr) : 0 < e.mass := by
  cases e with
  | number | symbol => simp
  | nary => rw [mass_nary]; omega
  | power => rw [mass_power]; omega

@[simp] theorem masses_append : masses (xs ++ ys) = masses xs + masses ys := by
  induction xs with
  | nil => simp
  | cons e es ih =>
    simp only [List.cons_append, masses_cons, ih]
    omega

theorem masses_perm (perm : xs.Perm ys) : masses xs = masses ys := by
  induction perm with
  | nil => rfl
  | cons e _ ih => simp only [masses_cons, ih]
  | swap a b es => simp only [masses_cons]; omega
  | trans _ _ ih ih' => exact ih.trans ih'

theorem masses_sublist_le (order : xs.Sublist ys) : masses xs ≤ masses ys := by
  induction order with
  | slnil => exact Nat.le_refl _
  | cons e _ ih => simp; omega
  | cons_cons e _ ih => simp; omega

theorem length_le_masses (es : List Expr) : es.length ≤ masses es := by
  induction es with
  | nil => simp
  | cons e es ih =>
    have positive := mass_pos e
    simp
    omega

theorem mass_le_masses (member : e ∈ es) : e.mass ≤ masses es := by
  obtain ⟨before, after, rfl⟩ := List.append_of_mem member
  simp
  omega

theorem operand_mass_lt (member : o ∈ e.operands) : o.mass < e.mass := by
  cases e with
  | number | symbol => cases member
  | nary op es =>
    have bound : o.mass ≤ masses es := mass_le_masses member
    rw [mass_nary]
    omega
  | power base exponent =>
    simp only [operands, List.mem_cons, List.not_mem_nil, or_false] at member
    rcases member with rfl | rfl <;> simp <;> omega

theorem masses_operands (composite : e.isTerminal = false) : masses e.operands + 1 = e.mass := by
  cases e with
  | number | symbol => cases composite
  | nary | power => simp [operands]; omega

-- A sum or product of its own kind contributes its operands, without the mass of the node.
theorem masses_spliced_le (op : Nary) (e : Expr) : masses (e.spliced op) ≤ e.mass := by
  by_cases own : e.kind = op.kind
  · obtain ⟨es, rfl⟩ := eq_nary_of_kind own
    simp [spliced_self]
  · simp [spliced_of_kind_ne own]

theorem masses_spliced_own (own : e.kind = op.kind) : masses (e.spliced op) + 1 = e.mass := by
  obtain ⟨es, rfl⟩ := eq_nary_of_kind own
  simp [spliced_self]
  omega

-- No flat tree lies between a number and a node over two numbers.
theorem Flat.mass_ne_two (flat : e.Flat) : e.mass ≠ 2 := by
  cases e with
  | number | symbol => simp
  | nary op es =>
    have long := (flat_nary.mp flat).1.1
    have bound := length_le_masses es
    simp only [mass_nary]
    omega
  | power base exponent =>
    have ofBase := mass_pos base
    have ofExponent := mass_pos exponent
    simp only [mass_power]
    omega

theorem masses_flatMap_spliced_le (op : Nary) (es : List Expr) :
    masses (es.flatMap (·.spliced op)) ≤ masses es := by
  induction es with
  | nil => simp
  | cons e es ih =>
    have first := masses_spliced_le op e
    simp only [List.flatMap_cons, masses_append, masses_cons]
    omega

end Expr

namespace Nary

open SymbolicArith.Expr

variable {es : List Expr} (op : Nary)

theorem mass_collect_le (es : List Expr) : (op.collect es).mass ≤ 1 + masses es := by
  match es with
  | [] => simp [collect]
  | [e] => simp [collect]
  | _ :: _ :: _ => simp [collect]

theorem mass_join_le (es : List Expr) : (op.join es).mass ≤ 1 + masses es := by
  have collected : (op.join es).mass ≤ _ := op.mass_collect_le _
  have spliced := masses_flatMap_spliced_le op es
  omega

theorem mass_join_pair_le (x y : Expr) : (op.join [x, y]).mass ≤ 1 + (x.mass + y.mass) := by
  simpa using op.mass_join_le [x, y]

-- Where one of the two is spliced its node is saved.
theorem mass_join_pair_own (own : x.kind = op.kind ∨ y.kind = op.kind) :
    (op.join [x, y]).mass ≤ x.mass + y.mass := by
  have collected : (op.join [x, y]).mass ≤ _ := op.mass_collect_le _
  have ofX := masses_spliced_le op x
  have ofY := masses_spliced_le op y
  simp only [List.flatMap_cons, List.flatMap_nil, List.append_nil, masses_append] at collected
  rcases own with own | own
  · have saved := masses_spliced_own own
    omega
  · have saved := masses_spliced_own own
    omega

theorem mass_join_singleton_le (e : Expr) : (op.join [e]).mass ≤ e.mass := by
  by_cases own : e.kind = op.kind
  · obtain ⟨es, rfl⟩ := eq_nary_of_kind own
    simpa [join, spliced_self] using op.mass_collect_le es
  · simp [join, spliced_of_kind_ne own, collect]

theorem mass_join_short (short : es.length ≤ 1) : (op.join es).mass ≤ max 1 (masses es) := by
  match es with
  | [] => simp [join, collect]
  | [e] =>
    have single := op.mass_join_singleton_le e
    simp only [masses_cons, masses_nil]
    omega
  | _ :: _ :: _ => simp at short

theorem masses_spliced_join_le (some : es ≠ []) : masses ((op.join es).spliced op) ≤ masses es := by
  have spliced := masses_flatMap_spliced_le op es
  have positive := length_le_masses es
  have long := List.length_pos_iff.mpr some
  unfold join
  generalize es.flatMap (·.spliced op) = parts at spliced
  match parts with
  | [] => simp [collect, ofInt, Expr.spliced]; omega
  | [e] =>
    have single := masses_spliced_le op e
    simp only [masses_cons, masses_nil] at spliced
    simp only [collect]
    omega
  | _ :: _ :: _ => simpa [collect, spliced_self] using spliced

theorem masses_spliced_pair_le (e : Expr) (some : es ≠ []) :
    masses ([e, op.join es].flatMap (·.spliced op)) ≤ e.mass + masses es := by
  have first := masses_spliced_le op e
  have second := op.masses_spliced_join_le some
  simp
  omega

end Nary

theorem Operator.mass_plain_le (op : Operator) (x y : Expr) :
    (op.plain x y).mass ≤ 1 + (x.mass + y.mass) := by
  cases op with
  | nary op => exact op.mass_join_pair_le x y
  | power => simp [plain]

end SymbolicArith
