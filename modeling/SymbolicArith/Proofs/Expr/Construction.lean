import SymbolicArith.Proofs.Expr.Assembly
import SymbolicArith.Proofs.WellFormed

open SymbolicArith.Expr SymbolicArith.Outcome

-- Ways to build a sum or a product of several trees: all at once, by the name of its kind, and one
-- by one. From well-formed trees they all build the same one, however the operands are nested. It
-- is structurally the same as itself unless there is a NaN in it.
namespace SymbolicArith

namespace Expr

-- A NaN is not the same as itself.
def ComparableNode : Expr → Prop
  | .number (.float x) => x.isNaN = false
  | _ => True

instance : DecidablePred ComparableNode
  | .number (.float x) => inferInstanceAs (Decidable (x.isNaN = false))
  | .number (.whole _) | .number (.ratio _) | .symbol _ | .nary _ _ | .power _ _ =>
    .isTrue trivial

abbrev Comparable : Expr → Prop := Everywhere ComparableNode

variable {e : Expr} {es : List Expr}

theorem beq_self_of_not_isNaN {x : Float} (number : x.isNaN = false) : (x == x) = true := by
  change x.toModel.unpack.isNaN = false at number
  change (x.toModel.unpack.compare x.toModel.unpack == some .eq) = true
  cases unpacked : x.toModel.unpack with
  | notANumber =>
    rw [unpacked] at number
    exact absurd number nofun
  | infinity sign | zero sign => cases sign <;> rfl
  | finite sign mantissa exponent =>
    have alike : (compare exponent exponent).then (compare mantissa mantissa) = .eq := by simp
    cases sign with
    | positive => exact congrArg (some · == some .eq) alike
    | negative => exact congrArg (some ·.swap == some .eq) alike

theorem sameAll_self (each : ∀ e ∈ es, e.same e = true) : sameAll es es = true := by
  induction es with
  | nil => rfl
  | cons e es ih =>
    rw [sameAll, each e (by simp), ih fun o member => each o (List.mem_cons_of_mem e member)]
    rfl

theorem Comparable.same_self (comparable : e.Comparable) : e.same e = true := by
  induction e with
  | number value =>
    cases value with
    | whole | ratio => simp [same, Literal.same]
    | float x => exact beq_self_of_not_isNaN (everywhere_number.mp comparable)
  | symbol name => simp [same]
  | nary op es ih =>
    have each := (everywhere_nary.mp comparable).2
    simp [same, sameAll_self fun e member => ih e member (each e member)]
  | power base exponent ofBase ofExponent =>
    obtain ⟨_, comparableBase, comparableExponent⟩ := everywhere_power.mp comparable
    simp [same, ofBase comparableBase, ofExponent comparableExponent]

end Expr

namespace Nary

def operate : Nary → Value → Value → Except Failure Expr
  | .sum => addValues
  | .product => mulValues

def atOnce (op : Nary) (es : List Expr) : Except Failure Expr := joinValues op (es.map .tree)

def byKind (op : Nary) (es : List Expr) : Except Failure Expr := do
  make (← Kind.parse op.kind.name) (.list (es.map .tree))

def oneByOne (op : Nary) (first : Expr) (rest : List Expr) : Except Failure Expr :=
  rest.foldlM (fun total e => op.operate (.tree total) (.tree e)) first

def nestedLeft (op : Nary) (x y z : Expr) : Except Failure Expr := do
  op.operate (.tree (← op.operate (.tree x) (.tree y))) (.tree z)

def nestedRight (op : Nary) (x y z : Expr) : Except Failure Expr := do
  op.operate (.tree x) (.tree (← op.operate (.tree y) (.tree z)))

variable {op : Nary} {x y z first : Expr} {es rest : List Expr}

theorem operate_trees (op : Nary) (x y : Expr) :
    op.operate (.tree x) (.tree y) = .ok (op.join [x, y]) := by
  cases op <;> rfl

theorem atOnce_eq (op : Nary) (es : List Expr) : op.atOnce es = .ok (op.join es) := by
  have converted : (es.map Value.tree).mapM ofValue = .ok es := by
    rw [except_mapM_eq_ok, List.forall₂_map_left_iff]
    exact List.forall₂_same.mpr fun _ _ => rfl
  rw [atOnce, joinValues, converted]
  rfl

theorem start_trees (op : Nary) (es : List Expr) :
    Assembly.start op.kind (es.map .tree) = .ok ⟨op, es.flatMap (·.spliced op), false⟩ := by
  have extended := Assembly.extend_trees op [] es []
  rw [List.append_nil, List.nil_append] at extended
  simp only [Assembly.start, Nary.kind, Assembly.empty, extended, Assembly.extend,
    Assembly.spliced_eq]

theorem byKind_eq (op : Nary) (es : List Expr) : op.byKind es = .ok (op.join es) := by
  have parsed : Kind.parse op.kind.name = .ok op.kind := by cases op <;> rfl
  have composed : compose (.nary op) (es.map .tree) = .ok (op.join es) := by
    rw [compose, start_trees]
    rfl
  rw [byKind, parsed]
  exact composed

-- Each step joins what is joined already with one tree more.
theorem oneByOne_join (op : Nary) (some : es ≠ []) (flat : ∀ e ∈ es, e.Flat) (later : ∀ e ∈ rest, e.Flat) :
    op.oneByOne (op.join es) rest = .ok (op.join (es ++ rest)) := by
  induction rest generalizing es with
  | nil => rw [List.append_nil]; rfl
  | cons e rest ih =>
    have next : ∀ o ∈ es ++ [e], o.Flat := by
      simp only [List.mem_append, List.mem_singleton]
      rintro o (member | rfl)
      · exact flat o member
      · exact later o (by simp)
    have joined : op.join [op.join es, e] = op.join (es ++ [e]) := join_join some flat [] [e]
    calc op.oneByOne (op.join es) (e :: rest)
        = op.oneByOne (op.join [op.join es, e]) rest := by
          rw [oneByOne, List.foldlM_cons, operate_trees]
          rfl
      _ = op.oneByOne (op.join (es ++ [e])) rest := by rw [joined]
      _ = .ok (op.join (es ++ [e] ++ rest)) :=
          ih (by simp) next fun o member => later o (List.mem_cons_of_mem e member)
      _ = .ok (op.join (es ++ e :: rest)) := by rw [List.append_assoc, List.singleton_append]

theorem oneByOne_eq (flat : ∀ e ∈ first :: rest, e.Flat) :
    op.oneByOne first rest = .ok (op.join (first :: rest)) := by
  have single : ∀ e ∈ [first], e.Flat := by simpa using flat first (by simp)
  have joined := oneByOne_join op (List.cons_ne_nil first []) single fun e member =>
    flat e (List.mem_cons_of_mem first member)
  rwa [join_singleton (flat first (by simp))] at joined

theorem nestedLeft_eq (left : x.Flat) (middle : y.Flat) (z : Expr) :
    op.nestedLeft x y z = .ok (op.join [x, y, z]) := by
  have joined : op.join [op.join [x, y], z] = op.join [x, y, z] :=
    join_join (by simp) (by simp [left, middle]) [] [z]
  rw [nestedLeft, operate_trees, ← joined]
  exact operate_trees op _ z

theorem nestedRight_eq (x : Expr) (middle : y.Flat) (right : z.Flat) :
    op.nestedRight x y z = .ok (op.join [x, y, z]) := by
  have joined : op.join [x, op.join [y, z]] = op.join [x, y, z] :=
    join_join (by simp) (by simp [middle, right]) [x] []
  rw [nestedRight, operate_trees, ← joined]
  exact operate_trees op x _

theorem join_comparable (comparable : ∀ e ∈ es, e.Comparable) : (op.join es).Comparable :=
  join_everywhere (fun _ => trivial) (fun _ => trivial) comparable

end Nary

namespace Expr

-- All three ways, and both nestings, lead to one tree. It is the same in every literal, and found to
-- be so unless there is a NaN in it.
theorem constructions_agree (op : Nary) :
    (∀ first rest, (∀ e ∈ first :: rest, e.WellFormed) → ∃ r,
      op.atOnce (first :: rest) = .ok r ∧ op.byKind (first :: rest) = .ok r ∧
        op.oneByOne first rest = .ok r ∧
        ((∀ e ∈ first :: rest, e.Comparable) → r.same r = true)) ∧
    ∀ x y z, x.WellFormed → y.WellFormed → z.WellFormed → ∃ r,
      op.nestedLeft x y z = .ok r ∧ op.nestedRight x y z = .ok r ∧
        (x.Comparable → y.Comparable → z.Comparable → r.same r = true) := by
  constructor
  · intro first rest all
    have flat : ∀ e ∈ first :: rest, e.Flat := fun e member =>
      (wellFormed_iff.mp (all e member)).1
    exact ⟨_, Nary.atOnce_eq op _, Nary.byKind_eq op _, Nary.oneByOne_eq flat, fun comparable =>
      (Nary.join_comparable comparable).same_self⟩
  · intro x y z left middle right
    have flat := (wellFormed_iff.mp middle).1
    refine ⟨_, Nary.nestedLeft_eq (wellFormed_iff.mp left).1 flat z,
      Nary.nestedRight_eq x flat (wellFormed_iff.mp right).1, ?_⟩
    intro comparableX comparableY comparableZ
    exact (Nary.join_comparable (by simp [comparableX, comparableY, comparableZ])).same_self

-- A sum is spliced at either end, and a product and a float stay whole.
theorem constructions_agree_of_sums :
    let x := symbol "x"
    let half := number (.float 0.5)
    let all := sum [x, two, product [two, x], half, x]
    Nary.sum.atOnce [sum [x, two], product [two, x], sum [half, x]] = .ok all ∧
      Nary.sum.byKind [sum [x, two], product [two, x], sum [half, x]] = .ok all ∧
      Nary.sum.oneByOne (sum [x, two]) [product [two, x], sum [half, x]] = .ok all ∧
      Nary.sum.nestedLeft (sum [x, two]) (product [two, x]) (sum [half, x]) = .ok all ∧
      Nary.sum.nestedRight (sum [x, two]) (product [two, x]) (sum [half, x]) = .ok all ∧
      all.same all = true := by
  intro x half all
  have wellFormed : ∀ e ∈ [sum [x, two], product [two, x], sum [half, x]], e.WellFormed := by
    decide
  have comparable : ∀ e ∈ [sum [x, two], product [two, x], sum [half, x]], e.Comparable := by
    decide
  obtain ⟨r, joined, made, folded, same⟩ := (constructions_agree .sum).1 _ _ wellFormed
  obtain ⟨s, left, right, _⟩ := (constructions_agree .sum).2 _ _ _
    (wellFormed (sum [x, two]) (by simp)) (wellFormed (product [two, x]) (by simp))
    (wellFormed (sum [half, x]) (by simp))
  obtain rfl : all = r := Except.ok.inj joined
  obtain rfl : all = s := Except.ok.inj left
  exact ⟨joined, made, folded, left, right, same comparable⟩

-- Both succeed, and their results are structurally the same.
def Agree (one other : Except Failure Expr) : Prop :=
  ∃ r s, one = .ok r ∧ other = .ok s ∧ r.same s = true

-- With a NaN among the operands no two of the results are found to be the same.
theorem constructions_differ_on_nan :
    (¬ ∀ op : Nary, (∀ first rest, (∀ e ∈ first :: rest, e.WellFormed) →
        Agree (op.atOnce (first :: rest)) (op.byKind (first :: rest)) ∧
        Agree (op.byKind (first :: rest)) (op.oneByOne first rest)) ∧
      ∀ x y z, x.WellFormed → y.WellFormed → z.WellFormed →
        Agree (op.nestedLeft x y z) (op.nestedRight x y z)) ∧
    let nan := number (.float (0 / 0))
    let x := symbol "x"
    nan.WellFormed ∧ x.WellFormed ∧
      ¬ Agree (Nary.sum.atOnce [nan, x]) (Nary.sum.byKind [nan, x]) ∧
      ¬ Agree (Nary.sum.byKind [nan, x]) (Nary.sum.oneByOne nan [x]) ∧
      ¬ Agree (Nary.sum.nestedLeft nan x x) (Nary.sum.nestedRight nan x x) := by
  have differ : ∀ {one other : Except Failure Expr} {r : Expr}, one = .ok r → other = .ok r →
      r.same r = false → ¬ Agree one other := by
    rintro one other r rfl rfl same ⟨r', s', made, made', alike⟩
    cases made
    cases made'
    rw [same] at alike
    cases alike
  have wellFormed : ∀ e ∈ [number (.float (0 / 0)), symbol "x"], e.WellFormed := by decide
  have joined : ¬ Agree (Nary.sum.atOnce [number (.float (0 / 0)), symbol "x"])
      (Nary.sum.byKind [number (.float (0 / 0)), symbol "x"]) := differ rfl rfl (by decide)
  refine ⟨fun claim => ?_, wellFormed _ (by simp), wellFormed _ (by simp), joined,
    differ rfl rfl (by decide), differ rfl rfl (by decide)⟩
  exact joined ((claim .sum).1 _ _ wellFormed).1

end Expr

end SymbolicArith
