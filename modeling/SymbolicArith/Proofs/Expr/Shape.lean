import SymbolicArith.Expr.Join
import SymbolicArith.Proofs.Number.Literal

-- Shapes of trees: properties asked of every node of a tree, and those that reductions keep. A
-- tree is exact if it holds no floats. It is flat if every sum and product in it has two or more
-- operands, none of its own kind. It is canonical if it holds no whole ratios, as no tree does
-- whose numbers are made of values. Joining keeps all three.
namespace SymbolicArith

namespace Expr

mutual

-- The property holds of the tree and of every tree within it.
def Everywhere (holds : Expr → Prop) : Expr → Prop
  | .number value => holds (.number value)
  | .symbol name => holds (.symbol name)
  | .nary op operands => holds (.nary op operands) ∧ EverywhereIn holds operands
  | .power base exponent =>
    holds (.power base exponent) ∧ base.Everywhere holds ∧ exponent.Everywhere holds

def EverywhereIn (holds : Expr → Prop) : List Expr → Prop
  | [] => True
  | e :: es => e.Everywhere holds ∧ EverywhereIn holds es

end

mutual

def decideEverywhere (holds : Expr → Prop) [DecidablePred holds] :
    (e : Expr) → Decidable (e.Everywhere holds)
  | .number value => inferInstanceAs (Decidable (holds (.number value)))
  | .symbol name => inferInstanceAs (Decidable (holds (.symbol name)))
  | .nary _ operands => @instDecidableAnd _ _ _ (decideEverywhereIn holds operands)
  | .power base exponent =>
    @instDecidableAnd _ _ _ (@instDecidableAnd _ _ (decideEverywhere holds base)
      (decideEverywhere holds exponent))

def decideEverywhereIn (holds : Expr → Prop) [DecidablePred holds] :
    (es : List Expr) → Decidable (EverywhereIn holds es)
  | [] => .isTrue trivial
  | e :: es => @instDecidableAnd _ _ (decideEverywhere holds e) (decideEverywhereIn holds es)

end

instance (holds : Expr → Prop) [DecidablePred holds] : DecidablePred (Everywhere holds) :=
  decideEverywhere holds

variable {holds : Expr → Prop} {e o : Expr} {es : List Expr} {op : Nary}

@[simp] theorem everywhereIn_iff : EverywhereIn holds es ↔ ∀ e ∈ es, e.Everywhere holds := by
  induction es with
  | nil => simp [EverywhereIn]
  | cons e es ih => simp [EverywhereIn, ih]

@[simp] theorem everywhere_number : (number value).Everywhere holds ↔ holds (.number value) := by
  simp [Everywhere]
@[simp] theorem everywhere_symbol : (symbol name).Everywhere holds ↔ holds (.symbol name) := by
  simp [Everywhere]
@[simp] theorem everywhere_nary : (nary op es).Everywhere holds ↔
    holds (.nary op es) ∧ ∀ e ∈ es, e.Everywhere holds := by
  simp [Everywhere]
@[simp] theorem everywhere_power : (power base exponent).Everywhere holds ↔
    holds (.power base exponent) ∧ base.Everywhere holds ∧ exponent.Everywhere holds := by
  simp [Everywhere]

theorem Everywhere.here (everywhere : e.Everywhere holds) : holds e := by
  cases e with
  | number | symbol => simpa using everywhere
  | nary => exact (everywhere_nary.mp everywhere).1
  | power => exact (everywhere_power.mp everywhere).1

theorem Everywhere.operand (everywhere : e.Everywhere holds) (member : o ∈ e.operands) :
    o.Everywhere holds := by
  cases e with
  | number | symbol => cases member
  | nary op es => exact (everywhere_nary.mp everywhere).2 o member
  | power base exponent =>
    obtain ⟨_, ofBase, ofExponent⟩ := everywhere_power.mp everywhere
    simp only [operands, List.mem_cons, List.not_mem_nil, or_false] at member
    rcases member with rfl | rfl
    · exact ofBase
    · exact ofExponent

theorem everywhere_and {here there : Expr → Prop} (both : ∀ e, holds e ↔ here e ∧ there e) :
    e.Everywhere holds ↔ e.Everywhere here ∧ e.Everywhere there := by
  induction e with
  | number | symbol => simp [both]
  | nary op es ih =>
    simp only [everywhere_nary, both]
    constructor
    · rintro ⟨⟨left, right⟩, below⟩
      exact ⟨⟨left, fun e member => ((ih e member).mp (below e member)).1⟩,
        ⟨right, fun e member => ((ih e member).mp (below e member)).2⟩⟩
    · rintro ⟨⟨left, belowLeft⟩, ⟨right, belowRight⟩⟩
      refine ⟨⟨left, right⟩, fun e member => ?_⟩
      exact (ih e member).mpr ⟨belowLeft e member, belowRight e member⟩
  | power base exponent ofBase ofExponent =>
    simp only [everywhere_power, both, ofBase, ofExponent]
    constructor
    · rintro ⟨⟨left, right⟩, ⟨baseLeft, baseRight⟩, exponentLeft, exponentRight⟩
      exact ⟨⟨left, baseLeft, exponentLeft⟩, right, baseRight, exponentRight⟩
    · rintro ⟨⟨left, baseLeft, exponentLeft⟩, right, baseRight, exponentRight⟩
      exact ⟨⟨left, right⟩, ⟨baseLeft, baseRight⟩, exponentLeft, exponentRight⟩

def ExactNode : Expr → Prop
  | .number (.float _) => False
  | _ => True

-- Not a sum or product of fewer than two operands or with an operand of its own kind.
def FlatNode : Expr → Prop
  | .nary op operands => 2 ≤ operands.length ∧ ∀ e ∈ operands, e.kind ≠ op.kind
  | _ => True

instance : DecidablePred ExactNode
  | .number (.float _) => .isFalse id
  | .number (.whole _) | .number (.ratio _) | .symbol _ | .nary _ _ | .power _ _ =>
    .isTrue trivial

instance : DecidablePred FlatNode
  | .nary op operands =>
    inferInstanceAs (Decidable (2 ≤ operands.length ∧ ∀ e ∈ operands, e.kind ≠ op.kind))
  | .number _ | .symbol _ | .power _ _ => .isTrue trivial

def CanonicalNode : Expr → Prop
  | .number value => value.Canonical
  | _ => True

instance : DecidablePred CanonicalNode
  | .number value => inferInstanceAs (Decidable value.Canonical)
  | .symbol _ | .nary _ _ | .power _ _ => .isTrue trivial

abbrev Exact : Expr → Prop := Everywhere ExactNode
abbrev Flat : Expr → Prop := Everywhere FlatNode
abbrev Canonical : Expr → Prop := Everywhere CanonicalNode

theorem exact_number {value : Literal} :
    (number value).Exact ↔ ∃ q, value.rational? = some q := by
  cases value <;> simp [ExactNode]

theorem exact_ofInt (n : Int) : (ofInt n).Exact := exact_number.mpr ⟨n, rfl⟩

theorem exact_nary : (nary op es).Exact ↔ ∀ e ∈ es, e.Exact := by
  simp [ExactNode]

theorem exact_power : (power base exponent).Exact ↔ base.Exact ∧ exponent.Exact := by
  simp [ExactNode]

theorem Exact.number (exact : (Expr.number value).Exact) : ∃ q, value.rational? = some q :=
  exact_number.mp exact

-- An exact number in whichever form.
def IsNumber (e : Expr) (q : ℚ) : Prop := ∃ value, e = .number value ∧ value.rational? = some q

@[simp] theorem isNumber_number {value : Literal} {q : ℚ} :
    (number value).IsNumber q ↔ value.rational? = some q := by
  simp [IsNumber]

theorem isNumber_exact (q : ℚ) : (number (.exact q)).IsNumber q :=
  ⟨.exact q, rfl, Literal.rational?_exact q⟩

theorem IsNumber.exact {q : ℚ} (number : e.IsNumber q) : e.Exact := by
  obtain ⟨value, rfl, is⟩ := number
  exact exact_number.mpr ⟨q, is⟩

theorem flat_terminal (terminal : e.isTerminal) : e.Flat := by
  cases e with
  | number | symbol => simp [FlatNode]
  | nary | power => cases terminal

theorem flat_nary : (nary op es).Flat ↔
    (2 ≤ es.length ∧ ∀ e ∈ es, e.kind ≠ op.kind) ∧ ∀ e ∈ es, e.Flat := by
  simp [FlatNode]

theorem flat_power : (power base exponent).Flat ↔ base.Flat ∧ exponent.Flat := by
  simp [FlatNode]

theorem number_kind_ne (value : Literal) (op : Operator) : (number value).kind ≠ op.kind := nofun

theorem ofInt_kind_ne (n : Int) (op : Operator) : (ofInt n).kind ≠ op.kind := number_kind_ne _ op

theorem product_kind_ne_sum : (product es).kind ≠ .sum := nofun

theorem spliced_self : (nary op es).spliced op = es := by simp [spliced]

theorem spliced_of_kind_ne (other : e.kind ≠ op.kind) : e.spliced op = [e] := by
  cases e with
  | number | symbol | power => rfl
  | nary own es =>
    have differ : own ≠ op := fun same => other (by rw [same]; rfl)
    simp [spliced, differ]

theorem eq_nary_of_kind (own : e.kind = op.kind) : ∃ es, e = .nary op es := by
  cases e with
  | number | symbol | power => simp [kind, Nary.kind] at own
  | nary op' es =>
    obtain rfl : op' = op := by simpa [kind, Nary.kind] using own
    exact ⟨es, rfl⟩

theorem eq_power_of_kind (own : e.kind = .power) : ∃ base exponent, e = .power base exponent := by
  cases e with
  | number | symbol | nary => simp [kind, Nary.kind] at own
  | power base exponent => exact ⟨base, exponent, rfl⟩

-- What an operand contributes is itself, or one of the operands it is spliced into.
theorem mem_spliced (member : o ∈ e.spliced op) :
    (o = e ∧ e.kind ≠ op.kind) ∨ ∃ es, e = .nary op es ∧ o ∈ es := by
  by_cases own : e.kind = op.kind
  · obtain ⟨es, rfl⟩ := eq_nary_of_kind own
    exact .inr ⟨es, rfl, by rwa [spliced_self] at member⟩
  · rw [spliced_of_kind_ne own] at member
    exact .inl ⟨List.mem_singleton.mp member, own⟩

theorem flatMap_spliced_of_kind_ne (others : ∀ e ∈ es, e.kind ≠ op.kind) :
    es.flatMap (·.spliced op) = es := by
  induction es with
  | nil => rfl
  | cons e es ih =>
    rw [List.flatMap_cons, spliced_of_kind_ne (others e (by simp)),
      ih fun o member => others o (by simp [member])]
    rfl

theorem Flat.spliced_ne_nil (flat : e.Flat) : e.spliced op ≠ [] := by
  by_cases own : e.kind = op.kind
  · obtain ⟨es, rfl⟩ := eq_nary_of_kind own
    have long := (flat_nary.mp flat).1.1
    rw [spliced_self]
    exact List.ne_nil_of_length_pos (by omega)
  · rw [spliced_of_kind_ne own]
    exact List.cons_ne_nil e []

-- The parts of flat trees are flat, and none is of the operator that they are taken from.
theorem flat_of_mem_flatMap_spliced (flat : ∀ e ∈ es, e.Flat)
    (member : o ∈ es.flatMap (·.spliced op)) : o.Flat ∧ o.kind ≠ op.kind := by
  obtain ⟨e, present, part⟩ := List.mem_flatMap.mp member
  rcases mem_spliced part with ⟨rfl, other⟩ | ⟨inner, rfl, within⟩
  · exact ⟨flat o present, other⟩
  · obtain ⟨⟨_, others⟩, below⟩ := flat_nary.mp (flat _ present)
    exact ⟨below o within, others o within⟩

theorem flatMap_spliced_ne_nil (some : es ≠ []) (flat : ∀ e ∈ es, e.Flat) :
    es.flatMap (·.spliced op) ≠ [] := by
  obtain ⟨e, rest, rfl⟩ := List.exists_cons_of_ne_nil some
  intro empty
  exact (flat e (by simp)).spliced_ne_nil (List.append_eq_nil_iff.mp empty).1

theorem sameAll_iff {keys : List Expr}
    (each : ∀ e ∈ es, ∀ key : Expr, key.same e = true ↔ key = e) :
    sameAll keys es = true ↔ keys = es := by
  induction es generalizing keys with
  | nil => cases keys <;> simp [sameAll]
  | cons e es ih =>
    cases keys with
    | nil => simp [sameAll]
    | cons key keys =>
      rw [sameAll, Bool.and_eq_true, each e (by simp),
        ih fun o member => each o (List.mem_cons_of_mem e member), List.cons.injEq]

-- Structural sameness is equality where there are no floats.
theorem Exact.same_iff {key : Expr} (exact : e.Exact) : key.same e = true ↔ key = e := by
  induction e generalizing key with
  | number value =>
    obtain ⟨q, is⟩ := exact.number
    cases key with
    | number literal =>
      cases value with
      | float => cases is
      | whole | ratio => cases literal <;> simp [same, Literal.same]
    | symbol | nary | power => simp [same]
  | symbol name => cases key <;> simp [same]
  | nary op es ih =>
    have below := exact_nary.mp exact
    cases key with
    | nary op' keys => simp [same, sameAll_iff fun e member _ => ih e member (below e member)]
    | number | symbol | power => simp [same]
  | power base exponent ofBase ofExponent =>
    obtain ⟨exactBase, exactExponent⟩ := exact_power.mp exact
    cases key with
    | power base' exponent' => simp [same, ofBase exactBase, ofExponent exactExponent]
    | number | symbol | nary => simp [same]

end Expr

namespace Nary

open SymbolicArith.Expr

variable {op : Nary} {e : Expr} {es : List Expr} {holds : Expr → Prop}

theorem collect_of_two_le (long : 2 ≤ es.length) : op.collect es = .nary op es := by
  match es, long with
  | _ :: _ :: _, _ => rfl

theorem join_of_kind_ne (long : 2 ≤ es.length) (others : ∀ e ∈ es, e.kind ≠ op.kind) :
    op.join es = .nary op es := by
  rw [join, flatMap_spliced_of_kind_ne others, collect_of_two_le long]

theorem join_pair (x y : Expr) (otherX : x.kind ≠ op.kind) (otherY : y.kind ≠ op.kind) :
    op.join [x, y] = .nary op [x, y] :=
  join_of_kind_ne (Nat.le_refl 2) (by simp [otherX, otherY])

-- What holds of the identity, of each operand and of a node over several of them holds of the join.
theorem collect_induct (identity : holds (.ofInt op.identity)) (each : ∀ e ∈ es, holds e)
    (node : 2 ≤ es.length → holds (.nary op es)) : holds (op.collect es) := by
  match es with
  | [] => exact identity
  | [e] => exact each e (by simp)
  | _ :: _ :: _ => exact node (by simp)

theorem collect_cases (op : Nary) (es : List Expr) : op.collect es = .ofInt op.identity ∨
    op.collect es ∈ es ∨ (2 ≤ es.length ∧ op.collect es = .nary op es) := by
  match es with
  | [] => exact .inl rfl
  | [e] => exact .inr (.inl (.head _))
  | _ :: _ :: _ => exact .inr (.inr ⟨by simp, rfl⟩)

-- A property of nodes that no sum or product can break is kept by joining.
theorem join_everywhere (numbers : ∀ n, holds (.ofInt n)) (nodes : ∀ es, holds (.nary op es))
    (all : ∀ e ∈ es, e.Everywhere holds) : (op.join es).Everywhere holds := by
  have spliced : ∀ o ∈ es.flatMap (·.spliced op), o.Everywhere holds := by
    intro o member
    obtain ⟨e, present, part⟩ := List.mem_flatMap.mp member
    rcases mem_spliced part with ⟨rfl, _⟩ | ⟨inner, rfl, within⟩
    · exact all o present
    · exact (everywhere_nary.mp (all _ present)).2 o within
  exact collect_induct (everywhere_number.mpr (numbers _)) spliced fun _ =>
    everywhere_nary.mpr ⟨nodes _, spliced⟩

theorem everywhere_of_collect (collected : (op.collect es).Everywhere holds) :
    ∀ e ∈ es, e.Everywhere holds := by
  match es with
  | [] => simp
  | [e] => simpa [collect] using collected
  | _ :: _ :: _ => exact (everywhere_nary.mp collected).2

-- What holds everywhere in a join holds everywhere in its operands: all that can be missing from the
-- join is a node of its own operator.
theorem everywhere_of_join (nodes : ∀ es, holds (.nary op es))
    (joined : (op.join es).Everywhere holds) : ∀ e ∈ es, e.Everywhere holds := by
  intro e member
  have parts : ∀ o ∈ e.spliced op, o.Everywhere holds := fun o part =>
    everywhere_of_collect joined o (List.mem_flatMap.mpr ⟨e, member, part⟩)
  by_cases own : e.kind = op.kind
  · obtain ⟨inner, rfl⟩ := eq_nary_of_kind own
    rw [spliced_self] at parts
    exact everywhere_nary.mpr ⟨nodes inner, parts⟩
  · rw [spliced_of_kind_ne own] at parts
    exact parts e (by simp)

theorem join_exact (exact : ∀ e ∈ es, e.Exact) : (op.join es).Exact :=
  join_everywhere (fun _ => trivial) (fun _ => trivial) exact

theorem join_canonical (canonical : ∀ e ∈ es, e.Canonical) : (op.join es).Canonical :=
  join_everywhere (fun _ => rfl) (fun _ => trivial) canonical

theorem join_flat (flat : ∀ e ∈ es, e.Flat) : (op.join es).Flat := by
  have spliced : ∀ o ∈ es.flatMap (·.spliced op), o.Flat ∧ o.kind ≠ op.kind := fun _ =>
    flat_of_mem_flatMap_spliced flat
  exact collect_induct (flat_terminal rfl) (fun o member => (spliced o member).1) fun long =>
    flat_nary.mpr
      ⟨⟨long, fun o member => (spliced o member).2⟩, fun o member => (spliced o member).1⟩

-- What a join of flat trees is made of can be read off it again.
theorem spliced_join (some : es ≠ []) (flat : ∀ e ∈ es, e.Flat) :
    (op.join es).spliced op = es.flatMap (·.spliced op) := by
  have nonempty : es.flatMap (·.spliced op) ≠ [] := flatMap_spliced_ne_nil some flat
  have others : ∀ o ∈ es.flatMap (·.spliced op), o.kind ≠ op.kind := fun _ member =>
    (flat_of_mem_flatMap_spliced flat member).2
  unfold join
  generalize es.flatMap (·.spliced op) = parts at nonempty others
  match parts with
  | [] => exact absurd rfl nonempty
  | [o] => exact spliced_of_kind_ne (others o (by simp))
  | _ :: _ :: _ => exact spliced_self

theorem join_singleton (flat : e.Flat) : op.join [e] = e := by
  rw [join, List.flatMap_singleton]
  by_cases own : e.kind = op.kind
  · obtain ⟨es, rfl⟩ := eq_nary_of_kind own
    rw [spliced_self, collect_of_two_le (flat_nary.mp flat).1.1]
  · rw [spliced_of_kind_ne own]
    rfl

-- Joining is associative on flat trees: a join among the operands might as well be its operands.
theorem join_join (some : es ≠ []) (flat : ∀ e ∈ es, e.Flat) (before after : List Expr) :
    op.join (before ++ op.join es :: after) = op.join (before ++ es ++ after) := by
  simp only [join, List.flatMap_append, List.flatMap_cons]
  rw [← join, spliced_join some flat, List.append_assoc]

end Nary

end SymbolicArith
