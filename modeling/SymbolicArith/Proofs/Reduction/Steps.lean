import Mathlib.Logic.Relation
import SymbolicArith.Proofs.Expr.Shape
import SymbolicArith.Proofs.Outcome
import SymbolicArith.Reduction.Depth

-- What each operation of an engine can answer. Every operation is opened here once: the cases in
-- which it has a result are stated as relations between its operands and the result, and later
-- modules argue from these alone.
namespace SymbolicArith

def Split.rests (found : Split) : Expr :=
  Nary.sum.join [Nary.product.join found.restX, Nary.product.join found.restY]

def Split.factored (found : Split) (reduced : Expr) : Expr :=
  Nary.product.join [reduced, Nary.product.join found.common]

section

variable {R R' : α → β → Prop} {xs : List α} {ys : List β}

theorem pair_of_mem_left (paired : List.Forall₂ R xs ys) (member : x ∈ xs) : ∃ y ∈ ys, R x y := by
  induction paired with
  | nil => cases member
  | cons pair _ ih =>
    rcases List.mem_cons.mp member with rfl | later
    · exact ⟨_, by simp, pair⟩
    · obtain ⟨y, present, pair⟩ := ih later
      exact ⟨y, by simp [present], pair⟩

theorem pair_of_mem_right (paired : List.Forall₂ R xs ys) (member : y ∈ ys) : ∃ x ∈ xs, R x y :=
  pair_of_mem_left paired.flip member

theorem pairs_imp (pairs : List.Forall₂ R xs ys) (each : ∀ a ∈ xs, ∀ b ∈ ys, R a b → R' a b) :
    List.Forall₂ R' xs ys := by
  induction pairs with
  | nil => exact .nil
  | cons pair _ ih =>
    refine .cons (each _ (by simp) _ (by simp) pair) (ih ?_)
    intro a inA b inB
    exact each a (by simp [inA]) b (by simp [inB])

theorem map_eq_of_pairs {f : α → γ} {g : β → γ} (pairs : List.Forall₂ (fun x y => g y = f x) xs ys) :
    ys.map g = xs.map f := by
  induction pairs with
  | nil => rfl
  | cons pair _ ih => rw [List.map_cons, List.map_cons, pair, ih]

end

namespace Engine

open Relation

-- The engine of a configuration and depth that recalls nothing.
abbrev within (config : Config) (depth : Nat) : Engine Outcome := ofDepth config depth

theorem ofDepth_config {m : Type → Type} [Evaluator m] (config : Config) (depth : Nat) :
    (ofDepth config depth : Engine m).config = config := by
  cases depth <;> rfl

@[simp] theorem within_config (config : Config) (depth : Nat) :
    (within config depth).config = config := ofDepth_config config depth

variable {engine : Engine Outcome} {op : Operator} {x y r : Expr} {xs ys es : List Expr}

theorem attempt_eq_done {first : Outcome (Option α)} {second : Outcome α} :
    attempt first second = .done a ↔
      first = .done (some a) ∨ (first = .done none ∧ second = .done a) := by
  simp only [attempt, Outcome.bind_eq_done]
  constructor
  · rintro ⟨_ | result, ran, answer⟩
    · exact .inr ⟨ran, answer⟩
    · exact .inl (by rw [ran, ← Outcome.done.inj answer])
  · rintro (ran | ⟨ran, answer⟩)
    · exact ⟨_, ran, rfl⟩
    · exact ⟨_, ran, answer⟩

-- The operands that two expressions share pairwise, up to equality.
abbrev Pairs (engine : Engine Outcome) : List Expr → List Expr → Prop :=
  List.Forall₂ fun x y => engine.isEqual x y = .done true

theorem seek_some {cursor : Cursor} (run : engine.seek x passed ys = .done (some cursor)) :
    ∃ skipped y rest, ys = skipped ++ y :: rest ∧ engine.isEqual x y = .done true ∧
      cursor = ⟨skipped.reverse ++ passed, rest⟩ := by
  induction ys generalizing passed with
  | nil => simp [seek] at run
  | cons y ahead ih =>
    simp only [seek, Outcome.bind_eq_done] at run
    obtain ⟨equal, compared, run⟩ := run
    cases equal with
    | true => exact ⟨[], y, ahead, rfl, compared, by simpa [eq_comm] using run⟩
    | false =>
      obtain ⟨skipped, z, rest, rfl, equal, rfl⟩ := ih (by simpa using run)
      exact ⟨y :: skipped, z, rest, rfl, equal, by simp⟩

-- A search takes one operand out of those under the cursor and keeps the others in their order.
theorem seek_takes {cursor behind : Cursor}
    (run : engine.seek x cursor.passed cursor.ahead = .done (some behind)) :
    ∃ y, engine.isEqual x y = .done true ∧ (y :: behind.all).Perm cursor.all ∧
      behind.all.Sublist cursor.all := by
  obtain ⟨skipped, y, rest, split, equal, rfl⟩ := seek_some run
  refine ⟨y, equal, ?_, ?_⟩
  · simp only [Cursor.all, split, List.reverse_append, List.reverse_reverse, List.append_assoc]
    exact List.perm_middle.symm.trans (.append_left _ List.perm_middle.symm)
  · simp only [Cursor.all, split, List.reverse_append, List.reverse_reverse, List.append_assoc]
    exact .append_left (.append_left (List.sublist_cons_self y rest) _) _

theorem seek_none (run : engine.seek x passed ys = .done none) :
    ∀ y ∈ ys, engine.isEqual x y = .done false := by
  induction ys generalizing passed with
  | nil => simp
  | cons y ahead ih =>
    simp only [seek, Outcome.bind_eq_done] at run
    obtain ⟨equal, compared, run⟩ := run
    cases equal with
    | true => simp at run
    | false => simpa [compared] using ih (by simpa using run)

-- A split of two operand lists: what is common was taken out of the second list pair by pair, and
-- nothing is lost or reordered.
structure Splits (engine : Engine Outcome) (xs ys : List Expr) (found : Split)
    (taken : List Expr) : Prop where
  paired : engine.Pairs found.common taken
  left : (found.common ++ found.restX).Perm xs
  right : (taken ++ found.restY).Perm ys
  commonOrder : found.common.Sublist xs
  restXOrder : found.restX.Sublist xs
  restYOrder : found.restY.Sublist ys

theorem split_splits {cursor : Cursor} {found : Split}
    (run : engine.split xs cursor = .done found) :
    ∃ taken, Splits engine xs cursor.all found taken := by
  induction xs generalizing cursor found with
  | nil =>
    obtain rfl : ⟨[], [], cursor.all⟩ = found := by simpa [split] using run
    exact ⟨[], .nil, .nil, .refl _, .slnil, .slnil, .refl _⟩
  | cons x xs ih =>
    simp only [split, Outcome.bind_eq_done] at run
    obtain ⟨sought, search, run⟩ := run
    cases sought with
    | some behind =>
      simp only [Outcome.bind_eq_done] at run
      obtain ⟨later, ran, answer⟩ := run
      cases Outcome.done.inj answer
      obtain ⟨y, equal, out, order⟩ := seek_takes search
      obtain ⟨taken, split⟩ := ih ran
      exact ⟨y :: taken, .cons equal split.paired, split.left.cons x,
        (split.right.cons y).trans out, split.commonOrder.cons_cons x, split.restXOrder.cons x,
        split.restYOrder.trans order⟩
    | none =>
      simp only [Outcome.bind_eq_done] at run
      obtain ⟨later, ran, answer⟩ := run
      cases Outcome.done.inj answer
      obtain ⟨taken, split⟩ := ih ran
      exact ⟨taken, split.paired, List.perm_middle.trans (split.left.cons x), split.right,
        split.commonOrder.cons x, split.restXOrder.cons_cons x, split.restYOrder⟩

-- Only lists without two equal operands have nothing in common: the cursor then never stays behind
-- a match, and every operand is compared with all of the second list.
theorem split_apart {found : Split} (run : engine.split xs (.start ys) = .done found)
    (none : found.common = []) : ∀ x ∈ xs, ∀ y ∈ ys, engine.isEqual x y = .done false := by
  induction xs generalizing found with
  | nil => simp
  | cons x xs ih =>
    simp only [split, Outcome.bind_eq_done] at run
    obtain ⟨sought, search, run⟩ := run
    cases sought with
    | some behind =>
      obtain ⟨later, _, answer⟩ := Outcome.bind_eq_done.mp run
      cases Outcome.done.inj answer
      cases none
    | none =>
      obtain ⟨later, ran, answer⟩ := Outcome.bind_eq_done.mp run
      cases Outcome.done.inj answer
      simpa using ⟨seek_none search, ih ran none⟩

theorem factorSum_none (run : engine.factorSum x y = .done none) :
    ∃ found, engine.splitOperands x y = .done found ∧
      (found.common ≠ [] → ∃ reduced, engine.reduce found.rests = .done reduced ∧
        ¬ engine.lighter reduced found.rests) := by
  simp only [factorSum, Outcome.bind_eq_done] at run
  obtain ⟨found, split, run⟩ := run
  refine ⟨found, split, ?_⟩
  intro some
  rw [if_neg (by simpa using some)] at run
  obtain ⟨reduced, ofRests, run⟩ := Outcome.bind_eq_done.mp run
  refine ⟨reduced, ofRests, ?_⟩
  intro lighter
  have lighter : engine.lighter reduced
      (Nary.sum.join [Nary.product.join found.restX, Nary.product.join found.restY]) := lighter
  rw [if_pos lighter] at run
  simp at run

theorem factorSum_some (run : engine.factorSum x y = .done (some r)) :
    ∃ found reduced taken, Splits engine x.operands y.operands found taken ∧ found.common ≠ [] ∧
      engine.reduce found.rests = .done reduced ∧ engine.lighter reduced found.rests ∧
      engine.reduce (found.factored reduced) = .done r := by
  simp only [factorSum, Outcome.bind_eq_done] at run
  obtain ⟨found, split, run⟩ := run
  obtain ⟨taken, splits⟩ := split_splits split
  split at run
  · simp at run
  · rename_i some
    simp only [Outcome.bind_eq_done] at run
    obtain ⟨reduced, ofRests, run⟩ := run
    split at run
    · rename_i lighter
      simp only [Outcome.bind_eq_done, Outcome.pure_eq, Outcome.done.injEq, Option.some.injEq] at run
      obtain ⟨_, ofFactored, rfl⟩ := run
      exact ⟨found, reduced, taken, splits, by simpa using some, ofRests, lighter, ofFactored⟩
    · simp at run

theorem mergePowers_some (run : engine.mergePowers base exponent base' exponent' = .done (some r)) :
    engine.isEqual base base' = .done true ∧
      ∃ reduced, engine.reduce (Nary.sum.join [exponent, exponent']) = .done reduced ∧
        engine.lighter reduced (Nary.sum.join [exponent, exponent']) ∧ r = .power base reduced := by
  simp only [mergePowers, Outcome.bind_eq_done] at run
  obtain ⟨equal, compared, run⟩ := run
  cases equal with
  | false => simp at run
  | true =>
    simp only [if_true, Outcome.bind_eq_done] at run
    obtain ⟨reduced, ofExponents, run⟩ := run
    split at run
    · rename_i lighter
      exact ⟨compared, reduced, ofExponents, lighter, by simpa [eq_comm] using run⟩
    · simp at run

-- How two operands of a sum or product can share a factor.
inductive Factored (engine : Engine Outcome) : Operator → Expr → Expr → Expr → Prop
  | doubled {x y : Expr} (equal : engine.isEqual x y = .done true) (otherX : x.kind ≠ .product)
      (otherY : y.kind ≠ .product) : Factored engine .sum x y (Nary.product.join [.two, x])
  | squared {x y : Expr} (equal : engine.isEqual x y = .done true) (otherX : x.kind ≠ .power)
      (otherY : y.kind ≠ .power) : Factored engine .product x y (.power x .two)
  | common {x y r : Expr} (own : x.kind = .product ∨ y.kind = .product)
      (shared : engine.factorSum (viewedAs .product x) (viewedAs .product y) = .done (some r)) :
      Factored engine .sum x y r
  | sameBase {x y r base exponent base' exponent' : Expr} (own : x.kind = .power ∨ y.kind = .power)
      (viewX : viewedAs .power x = .power base exponent)
      (viewY : viewedAs .power y = .power base' exponent')
      (shared : engine.mergePowers base exponent base' exponent' = .done (some r)) :
      Factored engine .product x y r

theorem viewedAs_own (own : x.kind = op.kind) : viewedAs op x = x := by simp [viewedAs, own]

theorem viewedAs_product (other : x.kind ≠ .product) :
    viewedAs .product x = .product [x, .one] := by
  have one : Expr.one.kind ≠ Nary.product.kind := by decide
  simp only [viewedAs, Operator.kind, other, if_false, Operator.plain]
  exact Nary.join_pair x .one other one

theorem operands_view_own {es : List Expr} :
    (viewedAs .product (.product es)).operands = es := by
  rw [viewedAs_own rfl]
  rfl

theorem operands_view_other (other : x.kind ≠ .product) :
    (viewedAs .product x).operands = [x, .one] := by
  rw [viewedAs_product other]
  rfl

-- Of an expression that is no product, only itself and the 1 can be taken out of the view.
theorem view_other_parts {part rest : List Expr} (other : x.kind ≠ .product) (some : part ≠ [])
    (noOne : Expr.one ∉ part) (perm : (part ++ rest).Perm (viewedAs .product x).operands) :
    part = [x] ∧ rest = [.one] := by
  rw [operands_view_other other] at perm
  have length := perm.length_eq
  have long := List.length_pos_iff.mpr some
  have inRest : Expr.one ∈ rest := by
    have member : Expr.one ∈ part ++ rest := perm.symm.subset (by simp)
    simpa [noOne] using member
  have positive := List.length_pos_of_mem inRest
  simp only [List.length_append, List.length_cons, List.length_nil] at length
  obtain ⟨a, rfl⟩ := List.length_eq_one_iff.mp (show part.length = 1 by omega)
  obtain ⟨b, rfl⟩ := List.length_eq_one_iff.mp (show rest.length = 1 by omega)
  obtain rfl : Expr.one = b := by simpa using inRest
  have choice : a = x ∨ a = Expr.one := by
    simpa using perm.subset (List.mem_append_left _ (.head _))
  rcases choice with rfl | rfl
  · exact ⟨rfl, rfl⟩
  · simp at noOne

theorem viewedAs_power (e : Expr) : ∃ base exponent, viewedAs .power e = .power base exponent := by
  unfold viewedAs
  split
  · rename_i own
    exact Expr.eq_power_of_kind own
  · exact ⟨e, .one, rfl⟩

theorem viewedAs_power_cases (view : viewedAs .power x = .power base exponent) :
    x = .power base exponent ∨ (x.kind ≠ .power ∧ base = x ∧ exponent = .one) := by
  by_cases own : x.kind = .power
  · rw [viewedAs_own own] at view
    exact .inl view
  · simp only [viewedAs, Operator.kind, own, if_false, Operator.plain, Expr.power.injEq] at view
    exact .inr ⟨own, view.1.symm, view.2.symm⟩

theorem ifEqual_some {result : Expr} (run : engine.ifEqual x y result = .done (some r)) :
    engine.isEqual x y = .done true ∧ r = result := by
  simp only [ifEqual, Outcome.bind_eq_done] at run
  obtain ⟨equal, compared, run⟩ := run
  cases equal with
  | false => simp at run
  | true => exact ⟨compared, by simpa [eq_comm] using run⟩

theorem factor_factored (run : engine.factor op x y = .done (some r)) :
    Factored engine op x y r := by
  cases op with
  | power => simp [factor] at run
  | nary op =>
    cases op with
    | sum =>
      simp only [factor] at run
      split at run
      · rename_i others
        obtain ⟨equal, rfl⟩ := ifEqual_some run
        exact .doubled equal others.1 others.2
      · rename_i own
        exact .common (by tauto) run
    | product =>
      simp only [factor] at run
      split at run
      · rename_i others
        obtain ⟨equal, rfl⟩ := ifEqual_some run
        exact .squared equal others.1 others.2
      · rename_i own
        obtain ⟨base, exponent, viewX⟩ := viewedAs_power x
        obtain ⟨base', exponent', viewY⟩ := viewedAs_power y
        rw [viewX, viewY] at run
        exact .sameBase (by tauto) viewX viewY run

theorem foldNumbers_some (run : engine.foldNumbers op x y = .done (some r)) :
    ∃ a b value, x = .number a ∧ y = .number b ∧
      foldLiterals engine.config op a b = .done (some value) ∧ r = .number value := by
  unfold foldNumbers at run
  split at run
  · rename_i a b
    simp only [Outcome.ofOutcome_eq, Outcome.bind_eq_done] at run
    obtain ⟨folded, ran, answer⟩ := run
    cases folded with
    | none => simp at answer
    | some value => exact ⟨a, b, value, rfl, rfl, ran, by simpa [eq_comm] using answer⟩
  · simp at run

-- The literal 0 or 1 as itself, or a composite equal to it.
inductive IsLiteral (engine : Engine Outcome) (n : Int) : Expr → Prop
  | number {value : Literal} (equal : value.equalsInt n) : IsLiteral engine n (.number value)
  | composite {e : Expr} (composite : e.isTerminal = false)
      (equal : engine.isEqual e (.ofInt n) = .done true) : IsLiteral engine n e

theorem isLiteral_true (run : engine.isLiteral x n = .done true) : IsLiteral engine n x := by
  cases x with
  | number value => exact .number (by simpa [isLiteral] using run)
  | symbol name => simp [isLiteral] at run
  | nary op operands => exact .composite rfl run
  | power base exponent => exact .composite rfl run

theorem firstRule_some {rules : List Rule} (run : engine.firstRule rules = .done (some r)) :
    ∃ rule ∈ rules, IsLiteral engine rule.literal rule.tested ∧ rule.result = r := by
  induction rules with
  | nil => simp [firstRule] at run
  | cons rule rest ih =>
    simp only [firstRule, Outcome.bind_eq_done] at run
    obtain ⟨applies, tested, run⟩ := run
    cases applies with
    | true => exact ⟨rule, by simp, isLiteral_true tested, by simpa using run⟩
    | false =>
      obtain ⟨later, member, literal, answer⟩ := ih (by simpa using run)
      exact ⟨later, by simp [member], literal, answer⟩

theorem firstRule_none {rules : List Rule} (run : engine.firstRule rules = .done none) :
    ∀ rule ∈ rules, engine.isLiteral rule.tested rule.literal = .done false := by
  induction rules with
  | nil => simp
  | cons rule rest ih =>
    simp only [firstRule, Outcome.bind_eq_done] at run
    obtain ⟨applies, tested, run⟩ := run
    cases applies with
    | true => simp at run
    | false => simpa using ⟨tested, ih (by simpa using run)⟩

theorem rule_tested (member : rule ∈ rules op x y) : rule.tested = x ∨ rule.tested = y := by
  cases op with
  | nary op =>
    cases op <;> simp only [rules, List.mem_cons, List.not_mem_nil, or_false] at member <;>
      rcases member with rfl | rfl | rfl | rfl <;> simp
  | power =>
    simp only [rules, List.mem_cons, List.not_mem_nil, or_false] at member
    rcases member with rfl | rfl | rfl | rfl <;> simp

inductive Combined (engine : Engine Outcome) (op : Operator) : Expr → Expr → Expr → Prop
  | folded {a b value : Literal} (fold : foldLiterals engine.config op a b = .done (some value)) :
      Combined engine op (.number a) (.number b) (.number value)
  | ruled {x y : Expr} {rule : Rule} (member : rule ∈ rules op x y)
      (applies : IsLiteral engine rule.literal rule.tested) : Combined engine op x y rule.result
  | factored {x y r : Expr} (shared : Factored engine op x y r) : Combined engine op x y r
  | plain {x y : Expr} : Combined engine op x y (op.plain x y)

theorem combine_combined (run : engine.combine op x y = .done r) : Combined engine op x y r := by
  simp only [combine, attempt_eq_done, Outcome.pure_eq, Outcome.done.injEq] at run
  rcases run with folded | ⟨_, ruled | ⟨_, factored | ⟨_, rfl⟩⟩⟩
  · obtain ⟨a, b, value, rfl, rfl, fold, rfl⟩ := foldNumbers_some folded
    exact .folded fold
  · obtain ⟨rule, member, applies, rfl⟩ := firstRule_some ruled
    exact .ruled member applies
  · exact .factored (factor_factored factored)
  · exact .plain

theorem merge_eq_done {answer : Option Expr} (run : engine.merge op x y = .done answer) :
    ∃ merged, engine.combine op x y = .done merged ∧
      answer = if engine.lighter merged (op.plain x y) then some merged else none := by
  simp only [merge, Outcome.bind_eq_done] at run
  obtain ⟨merged, combined, run⟩ := run
  exact ⟨merged, combined, (Outcome.done.inj run).symm⟩

theorem merge_none (run : engine.merge op x y = .done none) :
    ∃ merged, engine.combine op x y = .done merged ∧ ¬ engine.lighter merged (op.plain x y) := by
  obtain ⟨merged, combined, answer⟩ := merge_eq_done run
  refine ⟨merged, combined, ?_⟩
  intro lighter
  rw [if_pos lighter] at answer
  cases answer

theorem merge_some (run : engine.merge op x y = .done (some r)) :
    engine.combine op x y = .done r ∧ engine.lighter r (op.plain x y) := by
  obtain ⟨merged, combined, answer⟩ := merge_eq_done run
  split at answer
  · rename_i lighter
    cases Option.some.inj answer
    exact ⟨combined, lighter⟩
  · cases answer

-- One accepted merge of a pass: two operands, not necessarily neighbours, become one in the place
-- of the first.
inductive Merges (engine : Engine Outcome) (op : Operator) : List Expr → List Expr → Prop
  | merge {x y merged : Expr} (before between after : List Expr)
      (accepted : engine.merge op x y = .done (some merged)) :
      Merges engine op (before ++ x :: (between ++ y :: after)) (before ++ merged :: (between ++ after))

theorem Merges.cons (merges : Merges engine op xs ys) : Merges engine op (x :: xs) (x :: ys) := by
  cases merges with
  | merge before between after accepted => exact .merge (x :: before) between after accepted

theorem Merges.length (merges : Merges engine op xs ys) : ys.length + 1 = xs.length := by
  cases merges with
  | merge before between after accepted => simp; omega

theorem pass_length_le (run : ReflTransGen (Merges engine op) xs ys) : ys.length ≤ xs.length := by
  induction run with
  | refl => exact Nat.le_refl _
  | tail _ step ih =>
    have shorter := step.length
    omega

theorem pass_ne_nil (run : ReflTransGen (Merges engine op) xs ys) (some : xs ≠ []) : ys ≠ [] := by
  induction run with
  | refl => exact some
  | tail _ step _ =>
    cases step with
    | merge before between after accepted => simp

-- What every accepted merge keeps is kept by all operands of a pass.
section

variable {holds : Expr → Prop}
  (each : ∀ {x y r}, holds x → holds y → engine.merge op x y = .done (some r) → holds r)

include each

theorem Merges.kept (step : Merges engine op xs ys) (all : ∀ e ∈ xs, holds e) :
    ∀ e ∈ ys, holds e := by
  cases step with
  | merge before between after accepted =>
    have merged := each (all _ (by simp)) (all _ (by simp)) accepted
    intro e member
    simp only [List.mem_append, List.mem_cons] at member all
    rcases member with early | rfl | late
    · exact all e (.inl early)
    · exact merged
    · exact all e (by tauto)

theorem pass_kept (run : ReflTransGen (Merges engine op) xs ys) (all : ∀ e ∈ xs, holds e) :
    ∀ e ∈ ys, holds e := by
  induction run with
  | refl => exact all
  | tail _ step ih => exact step.kept each ih

end

theorem absorb_merges {absorbed : Absorbed} (passed : List Expr)
    (run : engine.absorb op x ys = .done absorbed) :
    ReflTransGen (Merges engine op) (x :: (passed ++ ys))
      (absorbed.operand :: (passed ++ absorbed.rest)) := by
  induction ys generalizing x passed absorbed with
  | nil =>
    obtain rfl : ⟨x, [], []⟩ = absorbed := by simpa [absorb] using run
    exact .refl
  | cons y ys ih =>
    simp only [absorb, Outcome.bind_eq_done] at run
    obtain ⟨answer, merged, run⟩ := run
    cases answer with
    | some merger =>
      simp only [Outcome.bind_eq_done] at run
      obtain ⟨after, ran, answer⟩ := run
      cases Outcome.done.inj answer
      have later := ih passed ran
      exact .head (.merge [] passed ys merged) later
    | none =>
      simp only [Outcome.bind_eq_done] at run
      obtain ⟨after, ran, answer⟩ := run
      cases Outcome.done.inj answer
      simpa using ih (passed ++ [y]) ran

theorem absorb_rest_sublist {absorbed : Absorbed} (run : engine.absorb op x ys = .done absorbed) :
    absorbed.rest.Sublist ys := by
  induction ys generalizing x absorbed with
  | nil =>
    cases Outcome.done.inj run
    exact .slnil
  | cons y ys ih =>
    simp only [absorb, Outcome.bind_eq_done] at run
    obtain ⟨answer, _, run⟩ := run
    cases answer with
    | some merger =>
      obtain ⟨after, ran, answer⟩ := Outcome.bind_eq_done.mp run
      cases Outcome.done.inj answer
      exact (ih ran).cons y
    | none =>
      obtain ⟨after, ran, answer⟩ := Outcome.bind_eq_done.mp run
      cases Outcome.done.inj answer
      exact (ih ran).cons_cons y

-- What a pass does: nothing, when every two operands were refused in their order, or else a merge
-- and what follows from it.
inductive Passed (engine : Engine Outcome) (op : Operator) : List Expr → List Expr → Prop
  | refused {es : List Expr}
      (refused : es.Pairwise fun x y => engine.merge op x y = .done none) : Passed engine op es es
  | merged {xs ys zs : List Expr} (first : Merges engine op xs ys)
      (rest : ReflTransGen (Merges engine op) ys zs) : Passed engine op xs zs

theorem Passed.merges (passed : Passed engine op xs ys) : ReflTransGen (Merges engine op) xs ys := by
  cases passed with
  | refused => exact .refl
  | merged first rest => exact .head first rest

theorem Merges.of_pair (merges : Merges engine op [x, y] zs) :
    ∃ merged, engine.merge op x y = .done (some merged) ∧ zs = [merged] := by
  generalize pair : [x, y] = xs at merges
  cases merges with
  | @merge a b merged before between after accepted =>
    have length := congrArg List.length pair
    simp only [List.length_append, List.length_cons, List.length_nil] at length
    obtain rfl : before = [] := List.length_eq_zero_iff.mp (by omega)
    obtain rfl : between = [] := List.length_eq_zero_iff.mp (by omega)
    obtain rfl : after = [] := List.length_eq_zero_iff.mp (by omega)
    simp only [List.nil_append, List.cons.injEq, and_true] at pair
    obtain ⟨rfl, rfl⟩ := pair
    exact ⟨merged, accepted, rfl⟩

theorem pass_singleton (run : ReflTransGen (Merges engine op) [x] ys) : ys = [x] := by
  rcases run.cases_head with same | ⟨zs, step, after⟩
  · exact same.symm
  · have shorter := step.length
    have long := List.length_pos_iff.mpr (pass_ne_nil (.single step) (List.cons_ne_nil x []))
    simp only [List.length_cons, List.length_nil] at shorter
    omega

theorem Merges.not_refused (merges : Merges engine op xs ys) :
    ¬ xs.Pairwise fun x y => engine.merge op x y = .done none := by
  intro refused
  cases merges with
  | @merge x y merged before between after accepted =>
    have later := (List.pairwise_append.mp refused).2.1
    have none := (List.pairwise_cons.mp later).1 y (by simp)
    rw [accepted] at none
    cases none

theorem absorb_passed {absorbed : Absorbed} (passed : List Expr)
    (run : engine.absorb op x ys = .done absorbed) :
    (absorbed.operand = x ∧ absorbed.rest = ys ∧ ∀ y ∈ ys, engine.merge op x y = .done none) ∨
      ∃ zs, Merges engine op (x :: (passed ++ ys)) zs ∧
        ReflTransGen (Merges engine op) zs (absorbed.operand :: (passed ++ absorbed.rest)) := by
  induction ys generalizing x passed absorbed with
  | nil =>
    obtain rfl : ⟨x, [], []⟩ = absorbed := by simpa [absorb] using run
    exact .inl ⟨rfl, rfl, by simp⟩
  | cons y ys ih =>
    simp only [absorb, Outcome.bind_eq_done] at run
    obtain ⟨answer, merged, run⟩ := run
    cases answer with
    | some merger =>
      simp only [Outcome.bind_eq_done] at run
      obtain ⟨after, ran, answer⟩ := run
      cases Outcome.done.inj answer
      have rest := absorb_merges passed ran
      exact .inr ⟨_, .merge [] passed ys merged, rest⟩
    | none =>
      simp only [Outcome.bind_eq_done] at run
      obtain ⟨after, ran, answer⟩ := run
      cases Outcome.done.inj answer
      rcases ih (passed ++ [y]) ran with ⟨same, all, refused⟩ | ⟨zs, first, rest⟩
      · exact .inl ⟨same, by simp [all], by simpa using ⟨merged, refused⟩⟩
      · exact .inr ⟨zs, by simpa using first, by simpa using rest⟩

theorem sweep_passed {steps : List MergeStep} (enough : xs.length ≤ turns)
    (run : engine.sweep op turns xs = .done (ys, steps)) : Passed engine op xs ys := by
  induction turns generalizing xs ys steps with
  | zero =>
    obtain rfl : xs = [] := List.length_eq_zero_iff.mp (by omega)
    cases (Prod.mk.inj (Outcome.done.inj run)).1
    exact .refused .nil
  | succ turns ih =>
    cases xs with
    | nil =>
      cases (Prod.mk.inj (Outcome.done.inj run)).1
      exact .refused .nil
    | cons x xs =>
      simp only [sweep, Outcome.bind_eq_done] at run
      obtain ⟨absorbed, first, ⟨rest, later⟩, ran, answer⟩ := run
      cases Outcome.done.inj answer
      have shorter : absorbed.rest.length ≤ xs.length := by
        simpa using pass_length_le (absorb_merges [] first)
      simp only [List.length_cons] at enough
      have pass := ih (by omega) ran
      have lift : ReflTransGen (Merges engine op) (absorbed.operand :: absorbed.rest)
          (absorbed.operand :: rest) :=
        pass.merges.lift (absorbed.operand :: ·) fun _ _ => .cons
      rcases absorb_passed [] first with ⟨same, all, refused⟩ | ⟨zs, merge, start⟩
      · rw [same]
        rw [all] at pass
        cases pass with
        | refused others => exact .refused (.cons refused others)
        | merged merge after => exact .merged merge.cons (after.lift (x :: ·) fun _ _ => .cons)
      · exact .merged merge (start.trans lift)

-- A pass needs no more turns than there are operands.
theorem sweep_turns (enough : es.length ≤ turns) (enough' : es.length ≤ turns') :
    engine.sweep op turns es = engine.sweep op turns' es := by
  induction turns generalizing es turns' with
  | zero =>
    obtain rfl : es = [] := List.length_eq_zero_iff.mp (by omega)
    cases turns' <;> rfl
  | succ turns ih =>
    cases es with
    | nil => cases turns' <;> rfl
    | cons x ys =>
      obtain ⟨turns', rfl⟩ : ∃ n, turns' = n + 1 := ⟨turns' - 1, by simp at enough'; omega⟩
      simp only [List.length_cons, Nat.add_le_add_iff_right] at enough enough'
      unfold sweep
      apply Outcome.bind_congr_done
      intro absorbed ran
      have shorter : absorbed.rest.length ≤ ys.length := by
        simpa using pass_length_le (absorb_merges [] ran)
      rw [ih (by omega) (Nat.le_trans shorter enough')]

theorem absorb_length {absorbed : Absorbed} (run : engine.absorb op x ys = .done absorbed) :
    absorbed.rest.length + absorbed.steps.length = ys.length := by
  induction ys generalizing x absorbed with
  | nil =>
    cases run
    rfl
  | cons y ys ih =>
    obtain ⟨answer, _, run⟩ := Outcome.bind_eq_done.mp run
    cases answer with
    | some merged =>
      obtain ⟨after, ran, ended⟩ := Outcome.bind_eq_done.mp run
      cases ended
      have rest := ih ran
      simp only [List.length_cons]
      omega
    | none =>
      obtain ⟨after, ran, ended⟩ := Outcome.bind_eq_done.mp run
      cases ended
      have rest := ih ran
      simp only [List.length_cons]
      omega

-- Every recorded merge of a pass makes one operand out of two.
theorem sweep_length {steps : List MergeStep} (run : engine.sweep op turns xs = .done (ys, steps)) :
    ys.length + steps.length = xs.length := by
  induction turns generalizing xs ys steps with
  | zero =>
    cases run
    rfl
  | succ turns ih =>
    cases xs with
    | nil =>
      cases run
      rfl
    | cons x xs =>
      obtain ⟨absorbed, first, run⟩ := Outcome.bind_eq_done.mp run
      obtain ⟨⟨others, later⟩, second, ended⟩ := Outcome.bind_eq_done.mp run
      cases ended
      have ofFirst := absorb_length first
      have ofSecond := ih second
      simp only [List.length_cons, List.length_append]
      omega

-- How one reduction goes: terminals stay, operands are reduced, and a pass merges what it can.
inductive Reduced (engine : Engine Outcome) : Expr → Expr → Prop
  | terminal {e : Expr} (terminal : e.isTerminal) : Reduced engine e e
  | nary {op : Nary} {operands reduced rest : List Expr}
      (below : List.Forall₂ (fun e r => engine.reduce e = .done r) operands reduced)
      (pass : Passed engine (.nary op) reduced rest) :
      Reduced engine (.nary op operands) (op.join rest)
  | power {base exponent b e : Expr} (ofBase : engine.reduce base = .done b)
      (ofExponent : engine.reduce exponent = .done e)
      (refused : engine.merge .power b e = .done none) :
      Reduced engine (.power base exponent) (.power b e)
  | merged {base exponent b e r : Expr} (ofBase : engine.reduce base = .done b)
      (ofExponent : engine.reduce exponent = .done e)
      (accepted : engine.merge .power b e = .done (some r)) :
      Reduced engine (.power base exponent) r

theorem reduceStep_nary {op : Nary} (run : engine.reduceStep (.nary op es) = .done r) :
    ∃ reduced rest steps, List.Forall₂ (fun e r => engine.reduce e = .done r) es reduced ∧
      engine.sweep (.nary op) reduced.length reduced = .done (rest, steps) ∧ r = op.join rest := by
  simp only [reduceStep, Outcome.remembering_eq, condense, Outcome.bind_eq_done,
    Outcome.pure_eq, Outcome.done.injEq, Outcome.mapM_eq_done] at run
  obtain ⟨reduced, below, _, ⟨⟨rest, steps⟩, pass, rfl⟩, rfl⟩ := run
  exact ⟨reduced, rest, steps, below, pass, rfl⟩

theorem reduceStep_reduced (run : engine.reduceStep x = .done r) : Reduced engine x r := by
  cases x with
  | number | symbol =>
    cases Outcome.done.inj run
    exact .terminal rfl
  | nary op operands =>
    obtain ⟨reduced, rest, steps, below, pass, rfl⟩ := reduceStep_nary run
    exact .nary below (sweep_passed (Nat.le_refl _) pass)
  | power base exponent =>
    simp only [reduceStep, Outcome.remembering_eq, condensePower, Outcome.bind_eq_done] at run
    obtain ⟨b, ofBase, e, ofExponent, result, ⟨answer, merged, condensed⟩, run⟩ := run
    cases Outcome.done.inj run
    cases answer with
    | some merger =>
      cases Outcome.done.inj condensed
      exact .merged ofBase ofExponent merged
    | none =>
      cases Outcome.done.inj condensed
      exact .power ofBase ofExponent merged

theorem reduceAllTraced_done {rs : List Expr} {steps : List MergeStep}
    (run : engine.reduceAllTraced es = .done (rs, steps)) :
    ∃ results, List.Forall₂ (fun e result => engine.reduceTraced e = .done result) es results ∧
      rs = results.map Prod.fst ∧ steps = results.flatMap Prod.snd := by
  induction es generalizing rs steps with
  | nil =>
    cases run
    exact ⟨[], .nil, rfl, rfl⟩
  | cons e es ih =>
    obtain ⟨first, ran, run⟩ := Outcome.bind_eq_done.mp run
    obtain ⟨others, later, ended⟩ := Outcome.bind_eq_done.mp run
    cases ended
    obtain ⟨results, below, reduced, recorded⟩ := ih later
    exact ⟨first :: results, .cons ran below, by rw [reduced]; rfl, by rw [recorded]; rfl⟩

-- How a traced reduction goes and what it records: the merges of the operands, one operand after the
-- other, and then those of the pass.
inductive Traced (engine : Engine Outcome) : Expr → Expr → List MergeStep → Prop
  | terminal {e : Expr} (terminal : e.isTerminal) : Traced engine e e []
  | nary {op : Nary} {operands rest : List Expr} {results : List (Expr × List MergeStep)}
      {later : List MergeStep}
      (below : List.Forall₂ (fun e result => engine.reduceTraced e = .done result) operands results)
      (pass : engine.sweep (.nary op) (results.map Prod.fst).length (results.map Prod.fst) =
        .done (rest, later)) :
      Traced engine (.nary op operands) (op.join rest) (results.flatMap Prod.snd ++ later)
  | power {base exponent b e : Expr} {before between : List MergeStep}
      (ofBase : engine.reduceTraced base = .done (b, before))
      (ofExponent : engine.reduceTraced exponent = .done (e, between))
      (refused : engine.merge .power b e = .done none) :
      Traced engine (.power base exponent) (.power b e) (before ++ between)
  | merged {base exponent b e r : Expr} {before between : List MergeStep}
      (ofBase : engine.reduceTraced base = .done (b, before))
      (ofExponent : engine.reduceTraced exponent = .done (e, between))
      (accepted : engine.merge .power b e = .done (some r)) :
      Traced engine (.power base exponent) r (before ++ between ++ [⟨.power, b, e, r⟩])

theorem reduceTraced_traced {steps : List MergeStep}
    (run : engine.reduceTraced x = .done (r, steps)) : Traced engine x r steps := by
  cases x with
  | number | symbol =>
    cases run
    exact .terminal rfl
  | nary op operands =>
    unfold reduceTraced at run
    obtain ⟨⟨reduced, before⟩, ofOperands, run⟩ := Outcome.bind_eq_done.mp run
    obtain ⟨⟨result, later⟩, condensed, ended⟩ := Outcome.bind_eq_done.mp run
    obtain ⟨⟨rest, _⟩, pass, collected⟩ := Outcome.bind_eq_done.mp condensed
    obtain ⟨results, below, rfl, rfl⟩ := reduceAllTraced_done ofOperands
    cases ended
    cases collected
    exact .nary below pass
  | power base exponent =>
    unfold reduceTraced at run
    obtain ⟨⟨b, before⟩, ofBase, run⟩ := Outcome.bind_eq_done.mp run
    obtain ⟨⟨e, between⟩, ofExponent, run⟩ := Outcome.bind_eq_done.mp run
    obtain ⟨⟨result, later⟩, condensed, ended⟩ := Outcome.bind_eq_done.mp run
    obtain ⟨answer, merged, collected⟩ := Outcome.bind_eq_done.mp condensed
    cases ended
    cases answer with
    | some merger =>
      cases collected
      exact .merged ofBase ofExponent merged
    | none =>
      cases collected
      rw [List.append_nil]
      exact .power ofBase ofExponent merged

theorem settleStep_done (run : engine.settleStep x = .done r) :
    ∃ again, engine.reduce x = .done again ∧
      if engine.lighter again x then engine.settle again = .done r else r = x := by
  simp only [settleStep, Outcome.bind_eq_done] at run
  obtain ⟨again, reduced, run⟩ := run
  refine ⟨again, reduced, ?_⟩
  split at run
  · rename_i lighter
    simpa [lighter] using run
  · rename_i heavier
    simpa [heavier, eq_comm] using run

-- When two settled trees are equal.
inductive Agree (engine : Engine Outcome) : Expr → Expr → Prop
  | number {a b : Literal} (equal : a.equals b) : Agree engine (.number a) (.number b)
  | symbol {name : String} : Agree engine (.symbol name) (.symbol name)
  | nary {op : Nary} {xs ys zs : List Expr} (paired : engine.Pairs xs zs) (perm : zs.Perm ys) :
      Agree engine (.nary op xs) (.nary op ys)
  | power {base exponent base' exponent' : Expr} (bases : engine.isEqual base base' = .done true)
      (exponents : engine.isEqual exponent exponent' = .done true) :
      Agree engine (.power base exponent) (.power base' exponent')

theorem pairOff_true (run : engine.pairOff xs ys = .done true) :
    ∃ zs, engine.Pairs xs zs ∧ zs.Perm ys := by
  induction xs generalizing ys with
  | nil =>
    obtain rfl : ys = [] := by simpa [pairOff] using run
    exact ⟨[], .nil, .nil⟩
  | cons x xs ih =>
    simp only [pairOff, Outcome.bind_eq_done] at run
    obtain ⟨sought, search, run⟩ := run
    cases sought with
    | none => simp at run
    | some cursor =>
      have search : engine.seek x (Cursor.start ys).passed (Cursor.start ys).ahead = _ := search
      obtain ⟨y, equal, out, _⟩ := seek_takes search
      obtain ⟨zs, paired, perm⟩ := ih run
      exact ⟨y :: zs, .cons equal paired, (perm.cons y).trans out⟩

theorem compare_true (run : engine.compare x y = .done true) : Agree engine x y := by
  unfold compare at run
  split at run
  · exact .number (by simpa using run)
  · obtain rfl : _ = _ := by simpa using run
    exact .symbol
  · split at run
    · rename_i same
      subst same
      obtain ⟨zs, paired, perm⟩ := pairOff_true run
      exact .nary paired perm
    · simp at run
  · simp only [Outcome.bind_eq_done] at run
    obtain ⟨equal, bases, run⟩ := run
    cases equal with
    | true => exact .power bases run
    | false => simp at run
  · simp at run

theorem isEqualStep_true (run : engine.isEqualStep x y = .done true) :
    ∃ x' y', engine.settled x = .done x' ∧ engine.settled y = .done y' ∧ Agree engine x' y' := by
  simp only [isEqualStep, Outcome.bind_eq_done] at run
  obtain ⟨x', ofX, y', ofY, run⟩ := run
  exact ⟨x', y', ofX, ofY, compare_true run⟩

end Engine
end SymbolicArith
