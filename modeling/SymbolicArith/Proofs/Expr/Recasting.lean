import SymbolicArith.Config
import SymbolicArith.Proofs.Expr.Shape

-- Casting a tree anew, with its symbols renamed or its numbers written in another form. That leaves
-- kinds and weights as they are, and goes through whatever builds trees of other trees.
namespace SymbolicArith

-- New leaves for old ones. A literal is exchanged for one that compares and calculates as it does,
-- and an integer stays as it is.
structure Recasting where
  literal : Literal → Literal
  symbol : String → String
  whole : ∀ n, literal (.whole n) = .whole n
  equals : ∀ x y, (literal x).equals (literal y) = x.equals y
  integer? : ∀ x, (literal x).integer? = x.integer?
  add? : ∀ x y, (literal x).add? (literal y) = (x.add? y).map literal
  mul? : ∀ x y, (literal x).mul? (literal y) = (x.mul? y).map literal
  foldPower? : ∀ limit x y,
    Literal.foldPower? limit (literal x) (literal y) = (Literal.foldPower? limit x y).map literal

namespace Recasting

variable (c : Recasting)

theorem equalsInt (x : Literal) (n : Int) : (c.literal x).equalsInt n = x.equalsInt n := by
  rw [Literal.equalsInt, Literal.equalsInt, ← c.equals x, c.whole]

-- Other symbols.
def renamed (s : String → String) : Recasting where
  literal := id
  symbol := s
  whole _ := rfl
  equals _ _ := rfl
  integer? _ := rfl
  add? _ _ := Option.map_id_apply.symm
  mul? _ _ := Option.map_id_apply.symm
  foldPower? _ _ _ := Option.map_id_apply.symm

@[simp] theorem symbol_renamed (s : String → String) : (renamed s).symbol = s := rfl

-- Every number as the literal that it is made into.
def remade : Recasting where
  literal := Literal.remade
  symbol := id
  whole _ := rfl
  equals := Literal.equals_remade
  integer? := Literal.integer?_remade
  add? := Literal.add?_remade
  mul? := Literal.mul?_remade
  foldPower? := Literal.foldPower?_remade

end Recasting

namespace Expr

mutual

def recast (c : Recasting) : Expr → Expr
  | .number value => .number (c.literal value)
  | .symbol name => .symbol (c.symbol name)
  | .nary op operands => .nary op (recastAll c operands)
  | .power base exponent => .power (base.recast c) (exponent.recast c)

def recastAll (c : Recasting) : List Expr → List Expr
  | [] => []
  | e :: es => e.recast c :: recastAll c es

end

abbrev rename (s : String → String) (e : Expr) : Expr := e.recast (.renamed s)
def remade (e : Expr) : Expr := e.recast .remade

variable {c : Recasting} {e : Expr} {es : List Expr} {op : Nary} {config : Config}

theorem recastAll_eq_map : recastAll c es = es.map (recast c) := by
  induction es with
  | nil => rfl
  | cons e es ih => rw [recastAll, ih, List.map_cons]

@[simp] theorem recast_number {value : Literal} :
    (number value).recast c = .number (c.literal value) := by
  rw [recast]
@[simp] theorem recast_symbol : (symbol name).recast c = .symbol (c.symbol name) := by rw [recast]
@[simp] theorem recast_nary : (nary op es).recast c = .nary op (es.map (recast c)) := by
  rw [recast, recastAll_eq_map]
@[simp] theorem recast_power :
    (power base exponent).recast c = .power (base.recast c) (exponent.recast c) := by
  rw [recast]
@[simp] theorem recast_ofInt (n : Int) : (ofInt n).recast c = ofInt n := by
  rw [ofInt, recast_number, c.whole]
@[simp] theorem recast_zero : zero.recast c = zero := recast_ofInt 0
@[simp] theorem recast_one : one.recast c = one := recast_ofInt 1
@[simp] theorem recast_two : two.recast c = two := recast_ofInt 2

@[simp] theorem kind_recast (e : Expr) : (e.recast c).kind = e.kind := by
  cases e <;> simp [kind]

@[simp] theorem operands_recast (e : Expr) : (e.recast c).operands = e.operands.map (recast c) := by
  cases e <;> simp [operands]

theorem weights_recast (each : ∀ e ∈ es, (e.recast c).weight config = e.weight config) :
    weights config (es.map (recast c)) = weights config es := by
  induction es with
  | nil => rfl
  | cons e es ih =>
    rw [List.map_cons, weights, weights, each e (by simp),
      ih fun o member => each o (by simp [member])]

@[simp] theorem weight_recast (e : Expr) : (e.recast c).weight config = e.weight config := by
  induction e with
  | number | symbol => simp [weight]
  | nary op es ih => simp [weight, weights_recast ih]
  | power base exponent ofBase ofExponent => simp [weight, ofBase, ofExponent]

theorem spliced_recast (op : Nary) (e : Expr) :
    (e.recast c).spliced op = (e.spliced op).map (recast c) := by
  by_cases own : e.kind = op.kind
  · obtain ⟨es, rfl⟩ := eq_nary_of_kind own
    rw [recast_nary, spliced_self, spliced_self]
  · rw [spliced_of_kind_ne own, spliced_of_kind_ne (by rwa [kind_recast])]
    rfl

@[simp] theorem remade_number {value : Literal} : (number value).remade = .number value.remade :=
  recast_number
@[simp] theorem remade_symbol : (symbol name).remade = .symbol name := recast_symbol
@[simp] theorem remade_nary : (nary op es).remade = .nary op (es.map remade) := recast_nary
@[simp] theorem remade_power :
    (power base exponent).remade = .power base.remade exponent.remade := recast_power

theorem exact_remade (e : Expr) : e.remade.Exact ↔ e.Exact := by
  induction e with
  | number value => rw [remade_number, exact_number, exact_number, Literal.rational?_remade]
  | symbol => simp
  | nary op es ih =>
    rw [remade_nary, exact_nary, exact_nary, List.forall_mem_map]
    exact forall_congr' fun e => forall_congr' (ih e)
  | power base exponent ofBase ofExponent =>
    rw [remade_power, exact_power, exact_power, ofBase, ofExponent]

theorem Flat.recast (flat : e.Flat) : (e.recast c).Flat := by
  induction e with
  | number | symbol => simp [FlatNode]
  | nary op es ih =>
    obtain ⟨⟨long, others⟩, below⟩ := flat_nary.mp flat
    rw [recast_nary, flat_nary]
    refine ⟨⟨by rwa [List.length_map], ?_⟩, List.forall_mem_map.mpr fun e member => ?_⟩
    · exact List.forall_mem_map.mpr fun e member => by rw [kind_recast]; exact others e member
    · exact ih e member (below e member)
  | power base exponent ofBase ofExponent =>
    obtain ⟨flatBase, flatExponent⟩ := flat_power.mp flat
    rw [recast_power, flat_power]
    exact ⟨ofBase flatBase, ofExponent flatExponent⟩

theorem canonical_remade (e : Expr) : e.remade.Canonical := by
  induction e with
  | number value => simp [CanonicalNode, Literal.canonical_remade]
  | symbol => simp [CanonicalNode]
  | nary op es ih =>
    rw [remade_nary]
    exact everywhere_nary.mpr ⟨trivial, List.forall_mem_map.mpr ih⟩
  | power base exponent ofBase ofExponent =>
    rw [remade_power]
    exact everywhere_power.mpr ⟨trivial, ofBase, ofExponent⟩

-- A tree with all numbers in canonical form is made as it is.
theorem Canonical.remade_eq (canonical : e.Canonical) : e.remade = e := by
  induction e with
  | number value => rw [remade_number, (everywhere_number.mp canonical : value.remade = value)]
  | symbol => simp
  | nary op es ih =>
    have below := (everywhere_nary.mp canonical).2
    rw [remade_nary, List.map_congr_left fun e member => ih e member (below e member), List.map_id']
  | power base exponent ofBase ofExponent =>
    obtain ⟨_, below, below'⟩ := everywhere_power.mp canonical
    rw [remade_power, ofBase below, ofExponent below']

end Expr

open SymbolicArith.Expr

variable {c : Recasting} {es : List Expr}

theorem Nary.recast_collect (op : Nary) (es : List Expr) :
    (op.collect es).recast c = op.collect (es.map (recast c)) := by
  match es with
  | [] => exact recast_ofInt _
  | [e] => rfl
  | _ :: _ :: _ => exact recast_nary

@[simp] theorem Nary.recast_join (op : Nary) (es : List Expr) :
    (op.join es).recast c = op.join (es.map (recast c)) := by
  simp only [join, recast_collect, List.map_flatMap, List.flatMap_map, spliced_recast]

@[simp] theorem Nary.remade_join (op : Nary) (es : List Expr) :
    (op.join es).remade = op.join (es.map remade) :=
  op.recast_join es

@[simp] theorem Operator.recast_plain (op : Operator) (x y : Expr) :
    (op.plain x y).recast c = op.plain (x.recast c) (y.recast c) := by
  cases op with
  | nary op => exact op.recast_join [x, y]
  | power => exact recast_power

end SymbolicArith
