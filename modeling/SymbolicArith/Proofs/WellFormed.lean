import SymbolicArith.Operations
import SymbolicArith.Proofs.Expansion.Steps
import SymbolicArith.Proofs.Expr.Build

open SymbolicArith.Expr SymbolicArith.Outcome

-- Well-formed trees: sums and products of two or more operands, none of them of their own kind,
-- powers of a base and an exponent, numbers in lowest terms and symbols with a name. Nothing checks
-- a tree that is put together by hand; but whatever is built from well-formed trees is well-formed,
-- and a reduction or an expansion makes a well-formed tree of any tree with well-formed leaves.
namespace SymbolicArith

variable {e x y r : Expr} {es : List Expr} {op : Nary}

namespace Expr

structure WellFormedNode (e : Expr) : Prop where
  nary : ∀ op : Nary, e.kind = op.kind → 2 ≤ e.operands.length ∧ ∀ o ∈ e.operands, o.kind ≠ op.kind
  power : e.kind = .power → e.operands.length = 2
  terminal : e.isTerminal → e.operands = []
  ratio : ∀ q, e.held = .ratio q → q.den ≠ 1
  name : e.held ≠ .text ""

abbrev WellFormed : Expr → Prop := Everywhere WellFormedNode

def NamedNode (e : Expr) : Prop := e ≠ symbol ""

instance : DecidablePred NamedNode := fun e => inferInstanceAs (Decidable (e ≠ symbol ""))

abbrev Named : Expr → Prop := Everywhere NamedNode

theorem held_ratio {q : ℚ} (held : e.held = .ratio q) : e = number (.ratio q) := by
  cases e with
  | symbol | nary | power => cases held
  | number value => cases value <;> cases held; rfl

theorem held_text (held : e.held = .text name) : e = symbol name := by
  cases e with
  | symbol => cases held; rfl
  | nary | power => cases held
  | number value => cases value <;> cases held

-- Powers and terminals have their operands by construction.
theorem wellFormedNode_iff (e : Expr) :
    WellFormedNode e ↔ FlatNode e ∧ CanonicalNode e ∧ NamedNode e := by
  constructor
  · intro node
    refine ⟨?_, ?_, ?_⟩
    · cases e with
      | number | symbol | power => trivial
      | nary op es => exact node.nary op rfl
    · cases e with
      | symbol | nary | power => trivial
      | number value =>
        cases value with
        | whole n => exact Literal.canonical_whole n
        | float x => exact Literal.canonical_float x
        | ratio q => exact Literal.canonical_ratio.mpr (node.ratio q rfl)
    · rintro rfl
      exact node.name rfl
  · rintro ⟨flat, canonical, named⟩
    refine ⟨?_, ?_, ?_, ?_, fun held => named (held_text held)⟩
    · intro op own
      obtain ⟨es, rfl⟩ := eq_nary_of_kind own
      exact flat
    · intro own
      obtain ⟨base, exponent, rfl⟩ := eq_power_of_kind own
      rfl
    · intro terminal
      cases e with
      | number | symbol => rfl
      | nary | power => cases terminal
    · intro q held
      obtain rfl := held_ratio held
      exact Literal.canonical_ratio.mp canonical

instance : DecidablePred WellFormedNode := fun e => decidable_of_iff _ (wellFormedNode_iff e).symm

theorem wellFormed_iff : e.WellFormed ↔ e.Flat ∧ e.Canonical ∧ e.Named :=
  (everywhere_and wellFormedNode_iff).trans (and_congr_right' (everywhere_and fun _ => Iff.rfl))

theorem wellFormed_number {value : Literal} (canonical : value.Canonical) :
    (number value).WellFormed :=
  wellFormed_iff.mpr
    ⟨flat_terminal rfl, everywhere_number.mpr canonical, everywhere_number.mpr nofun⟩

theorem wellFormed_ofInt (n : Int) : (ofInt n).WellFormed := wellFormed_number rfl

theorem wellFormed_symbol (some : name ≠ "") : (symbol name).WellFormed :=
  wellFormed_iff.mpr ⟨flat_terminal rfl, everywhere_symbol.mpr trivial,
    everywhere_symbol.mpr fun same => some (symbol.inj same)⟩

end Expr

theorem Nary.join_named (named : ∀ e ∈ es, e.Named) : (op.join es).Named :=
  join_everywhere (fun _ => nofun) (fun _ => nofun) named

theorem closed_wellFormed : Closed WellFormed where
  ofInt := wellFormed_ofInt
  folded _ _ fold := wellFormed_number (foldLiterals_canonical fold)
  join all := by
    refine wellFormed_iff.mpr ⟨Nary.join_flat ?_, Nary.join_canonical ?_, Nary.join_named ?_⟩
    · exact fun e member => (wellFormed_iff.mp (all e member)).1
    · exact fun e member => (wellFormed_iff.mp (all e member)).2.1
    · exact fun e member => (wellFormed_iff.mp (all e member)).2.2
  power base exponent := by
    obtain ⟨flat, canonical, named⟩ := wellFormed_iff.mp base
    obtain ⟨flat', canonical', named'⟩ := wellFormed_iff.mp exponent
    exact wellFormed_iff.mpr ⟨flat_power.mpr ⟨flat, flat'⟩,
      everywhere_power.mpr ⟨trivial, canonical, canonical'⟩,
      everywhere_power.mpr ⟨nofun, named, named'⟩⟩
  operand := Everywhere.operand

-- The trees that are offered, as such or as the items of a sequence, are well-formed.
def Value.WellFormed : Value → Prop
  | .tree e => e.WellFormed
  | value => ∀ items, value.items? = some items → ∀ e, .tree e ∈ items → e.WellFormed

section

variable {value a b : Value} {parts : List Value}

-- No trees are in numbers and texts.
theorem Value.wellFormed_ratio (q : ℚ) : (Value.ratio q).WellFormed := by
  intro items some
  cases some

theorem Value.wellFormed_text (s : String) : (Value.text s).WellFormed := by
  intro items some e member
  cases some
  simp at member

theorem Value.WellFormed.items (offered : value.WellFormed) (some : value.items? = .some parts) :
    ∀ e, .tree e ∈ parts → e.WellFormed := by
  cases value with
  | tree => cases some
  | list | tuple | text | table => exact offered parts some
  | whole | ratio | real | complex | truth | nothing => cases some

-- A number that is made of a value is in canonical form, whatever the value.
theorem Value.literal?_canonical {literal : Literal} (real : value.literal? = some literal) :
    literal.Canonical := by
  cases value with
  | whole | real =>
    cases real
    rfl
  | ratio q =>
    cases real
    exact Literal.canonical_exact q
  | tree | list | tuple | text | table | complex | truth | nothing => cases real

theorem Expr.Stands.wellFormed (stands : Stands value e) (offered : value.WellFormed) :
    e.WellFormed := by
  cases stands with
  | tree => exact offered
  | number real => exact wellFormed_number (Value.literal?_canonical real)
  | symbol some => exact wellFormed_symbol some

theorem neg_wellFormed (all : e.WellFormed) : e.neg.WellFormed := by
  cases e with
  | number value => exact wellFormed_number (Literal.canonical_neg value)
  | symbol | nary | power => exact closed_wellFormed.join_pair .product (wellFormed_ofInt (-1)) all

theorem div_wellFormed (left : x.WellFormed) (right : y.WellFormed) : (x.div y).WellFormed :=
  closed_wellFormed.join_pair .product left (closed_wellFormed.power right (wellFormed_ofInt (-1)))

theorem both_wellFormed {operate : Expr → Expr → Expr} (left : a.WellFormed) (right : b.WellFormed)
    (keeps : ∀ {x y}, x.WellFormed → y.WellFormed → (operate x y).WellFormed)
    (made : both operate a b = .ok r) : r.WellFormed := by
  obtain ⟨x, y, ofX, ofY, rfl⟩ := both_ok made
  exact keeps (ofX.wellFormed left) (ofY.wellFormed right)

theorem compose_wellFormed {operator : Operator} (all : ∀ e, .tree e ∈ parts → e.WellFormed)
    (made : compose operator parts = .ok r) : r.WellFormed := by
  cases operator with
  | nary op =>
    obtain ⟨es, rfl, rfl⟩ := compose_nary_ok made
    exact closed_wellFormed.join fun e member => all e (List.mem_map_of_mem member)
  | power =>
    obtain ⟨base, exponent, rfl, rfl⟩ := compose_power_ok made
    exact closed_wellFormed.power (all base (by simp)) (all exponent (by simp))

theorem make_wellFormed {kind : Kind} (all : value.WellFormed) (made : make kind value = .ok r) :
    r.WellFormed := by
  unfold make at made
  split at made
  · obtain ⟨literal, real, rfl⟩ := ofNumber_ok made
    exact wellFormed_number (Value.literal?_canonical real)
  · obtain ⟨name, some, _, rfl⟩ := ofName_ok made
    exact wellFormed_symbol some
  · split at made
    · rename_i items
      exact compose_wellFormed (all.items items) made
    · cases made

end

namespace Engine

variable (config : Config) (depth : Nat)

-- What each operation returns is well-formed if the trees it is given are. A reduction or an
-- expansion asks for well-formed leaves only.
structure KeepsWellFormed : Prop where
  number : ∀ {value r}, ofNumber value = .ok r → r.WellFormed
  symbol : ∀ {value r}, ofName value = .ok r → r.WellFormed
  convert : ∀ {value r}, value.WellFormed → ofValue value = .ok r → r.WellFormed
  copy : ∀ {e : Expr}, e.WellFormed → e.copy.WellFormed
  make : ∀ {kind payload r}, payload.WellFormed → Expr.make kind payload = .ok r → r.WellFormed
  operator : ∀ operate ∈ [addValues, subValues, mulValues, divValues, powerValues], ∀ {x y r},
    x.WellFormed → y.WellFormed → operate x y = .ok r → r.WellFormed
  neg : ∀ {value r}, value.WellFormed → negValue value = .ok r → r.WellFormed
  joined : ∀ {op values r}, (∀ value ∈ values, value.WellFormed) → joinValues op values = .ok r →
    r.WellFormed
  combine : ∀ {kind x y r}, x.WellFormed → y.WellFormed →
    (within config depth).combineValues kind x y = .done r → r.WellFormed
  findCommon : ∀ {x y found}, x.WellFormed → y.WellFormed →
    (within config depth).findCommon x y = .done found →
      ∀ e ∈ found.common ++ found.restX ++ found.restY, e.WellFormed
  factorOutSum : ∀ {x y r}, x.WellFormed → y.WellFormed →
    (within config depth).factorOutSum x y = .done (some r) → r.WellFormed
  factorOutPower : ∀ {x y r}, x.WellFormed → y.WellFormed →
    (within config depth).factorOutPower x y = .done (some r) → r.WellFormed
  reduce : ∀ {t r : Expr}, t.Leaves WellFormed → (within config depth).reduce t = .done r →
    r.WellFormed
  expand : ∀ {t r : Expr}, t.Leaves WellFormed → t.expandWithin config depth = .done r →
    r.WellFormed

variable {config depth}

theorem below_wellFormed (all : e.WellFormed) (run : (within config depth).reduce e = .done r) :
    r.WellFormed :=
  closed_wellFormed.reduce (closed_wellFormed.leaves all) run

theorem findCommon_wellFormed {found : Split} (left : x.WellFormed) (right : y.WellFormed)
    (run : (within config depth).findCommon x y = .done found) :
    ∀ e ∈ found.common ++ found.restX ++ found.restY, e.WellFormed := by
  obtain ⟨_, _, split⟩ := bind_eq_done.mp run
  obtain ⟨taken, splits⟩ := split_splits split
  intro e member
  rcases List.mem_append.mp member with ofX | ofY
  · exact left.operand (splits.left.subset ofX)
  · exact right.operand (splits.restYOrder.subset ofY)

theorem factorOutPower_wellFormed (left : x.WellFormed) (right : y.WellFormed)
    (run : (within config depth).factorOutPower x y = .done (some r)) : r.WellFormed := by
  unfold factorOutPower at run
  split at run
  · rename_i base exponent otherBase otherExponent
    obtain ⟨_, reduced, ofExponents, _, rfl⟩ := mergePowers_some run
    obtain ⟨_, ofBase, ofExponent⟩ := everywhere_power.mp left
    obtain ⟨_, _, ofExponent'⟩ := everywhere_power.mp right
    have exponents := closed_wellFormed.join_pair .sum ofExponent ofExponent'
    exact closed_wellFormed.power ofBase (below_wellFormed exponents ofExponents)
  · cases run

theorem combineValues_wellFormed {kind : Kind} {a b : Value} (left : a.WellFormed)
    (right : b.WellFormed) (run : (within config depth).combineValues kind a b = .done r) :
    r.WellFormed := by
  cases kind with
  | number | symbol => cases run
  | composite op =>
    simp only [combineValues, bind_eq_done, evaluator_ofExcept, ofExcept_eq_done] at run
    obtain ⟨x, ofA, y, ofB, combined⟩ := run
    exact closed_wellFormed.combined below_wellFormed ((ofValue_ok ofA).wellFormed left)
      ((ofValue_ok ofB).wellFormed right) (combine_combined combined)

theorem operations_keep_wellFormed (config : Config) (depth : Nat) :
    KeepsWellFormed config depth where
  number made := by
    obtain ⟨literal, real, rfl⟩ := ofNumber_ok made
    exact wellFormed_number (Value.literal?_canonical real)
  symbol made := by
    obtain ⟨name, some, _, rfl⟩ := ofName_ok made
    exact wellFormed_symbol some
  convert offered made := (ofValue_ok made).wellFormed offered
  copy all := (copy_eq _).symm ▸ all
  make := make_wellFormed
  operator := by
    simp only [List.forall_mem_cons]
    refine ⟨?_, ?_, ?_, ?_, ?_, by simp⟩
    · intro x y r left right
      exact both_wellFormed left right (closed_wellFormed.join_pair .sum)
    · intro x y r left right
      exact both_wellFormed left right fun ofX ofY =>
        closed_wellFormed.join_pair .sum ofX (neg_wellFormed ofY)
    · intro x y r left right
      exact both_wellFormed left right (closed_wellFormed.join_pair .product)
    · intro x y r left right
      exact both_wellFormed right left fun ofY ofX => div_wellFormed ofX ofY
    · intro x y r left right
      exact both_wellFormed left right closed_wellFormed.power
  neg offered made := by
    obtain ⟨e, stands, rfl⟩ := negValue_ok made
    exact neg_wellFormed (stands.wellFormed offered)
  joined offered made := by
    obtain ⟨es, each, rfl⟩ := joinValues_ok made
    apply closed_wellFormed.join
    intro e member
    obtain ⟨value, present, stands⟩ := pair_of_mem_right each member
    exact stands.wellFormed (offered value present)
  combine := combineValues_wellFormed
  findCommon := findCommon_wellFormed
  factorOutSum left right run := by
    obtain ⟨_, _, run⟩ := bind_eq_done.mp run
    exact closed_wellFormed.factorSum below_wellFormed left right run
  factorOutPower := factorOutPower_wellFormed
  reduce := closed_wellFormed.reduce
  expand := closed_wellFormed.expand

-- A sum of one sum, which has an empty product and a product of one factor; trees built of values
-- of several types; and two products with a common factor, and two powers with a common base.
theorem operations_keep_wellFormed_of_nested :
    let nested := sum [sum [symbol "x", product [], product [symbol "y"]]]
    let double := product [two, symbol "x"]
    let triple := product [symbol "x", ofInt 3]
    let square := power (symbol "x") two
    (∃ r, (within {} 6).reduce nested = .done r ∧ r.WellFormed) ∧
    (∃ r, nested.expandWithin {} 6 = .done r ∧ r.WellFormed) ∧
    (∃ r, Expr.make .sum (.tuple [.tree (sum [symbol "x", two]), .tree double]) = .ok r ∧
      r.WellFormed) ∧
    (∃ r, divValues (.ratio 2) (.tree double) = .ok r ∧ r.WellFormed) ∧
    (∃ r, negValue (.ratio 2) = .ok r ∧ r.WellFormed) ∧
    (∃ r, joinValues .product [.text "x", .tree double] = .ok r ∧ r.WellFormed) ∧
    (∃ r, (within {} 6).combineValues .sum (.tree double) (.tree triple) = .done r ∧
      r.WellFormed) ∧
    (∃ found, (within {} 6).findCommon double triple = .done found ∧
      ∀ e ∈ found.common ++ found.restX ++ found.restY, e.WellFormed) ∧
    (∃ r, (within {} 6).factorOutSum double triple = .done (some r) ∧ r.WellFormed) ∧
    ∃ r, (within {} 6).factorOutPower square square = .done (some r) ∧ r.WellFormed := by
  intro nested double triple square
  have keeps := operations_keep_wellFormed {} 6
  have leaves : nested.Leaves WellFormed := by
    simp [nested, isTerminal, kind, Nary.kind, Kind.isTerminal, wellFormedNode_iff, NamedNode,
      FlatNode, CanonicalNode]
  have ofDouble : (Value.tree double).WellFormed := show double.WellFormed by decide
  have ofTriple : (Value.tree triple).WellFormed := show triple.WellFormed by decide
  have ofSquare : square.WellFormed := by decide
  have ofRatio := Value.wellFormed_ratio 2
  have made : Expr.make .sum (.tuple [.tree (sum [symbol "x", two]), .tree double]) =
      .ok (sum [symbol "x", two, double]) := rfl
  have divided : divValues (.ratio 2) (.tree double) =
      .ok (product [two, power double minusOne]) := rfl
  have negated : negValue (.ratio 2) = .ok (ofInt (-2)) := rfl
  have joined : joinValues .product [.text "x", .tree double] =
      .ok (product [symbol "x", two, symbol "x"]) := rfl
  have reduced : (within {} 6).reduce nested = .done (sum [symbol "x", one, symbol "y"]) := rfl
  have expanded : nested.expandWithin {} 6 = .done (sum [symbol "x", one, symbol "y"]) := rfl
  have combined : (within {} 6).combineValues .sum (.tree double) (.tree triple) =
      .done (product [ofInt 5, symbol "x"]) := by cbv
  have common : (within {} 6).findCommon double triple =
      .done ⟨[symbol "x"], [two], [ofInt 3]⟩ := rfl
  have factored : (within {} 6).factorOutSum double triple =
      .done (some (product [ofInt 5, symbol "x"])) := by cbv
  have raised : (within {} 6).factorOutPower square square =
      .done (some (power (symbol "x") (ofInt 4))) := by cbv
  refine ⟨⟨_, reduced, keeps.reduce leaves reduced⟩, ⟨_, expanded, keeps.expand leaves expanded⟩,
    ⟨_, made, keeps.make ?_ made⟩,
    ⟨_, divided, keeps.operator divValues (by simp) ofRatio ofDouble divided⟩,
    ⟨_, negated, keeps.neg ofRatio negated⟩, ⟨_, joined, keeps.joined ?_ joined⟩,
    ⟨_, combined, keeps.combine ofDouble ofTriple combined⟩,
    ⟨_, common, keeps.findCommon ofDouble ofTriple common⟩,
    ⟨_, factored, keeps.factorOutSum ofDouble ofTriple factored⟩,
    ⟨_, raised, keeps.factorOutPower ofSquare ofSquare raised⟩⟩
  · rintro _ ⟨⟩ e member
    simp only [List.mem_cons, Value.tree.injEq, List.not_mem_nil, or_false] at member
    rcases member with rfl | rfl <;> decide
  · intro value member
    simp only [List.mem_cons, List.not_mem_nil, or_false] at member
    rcases member with rfl | rfl
    · exact Value.wellFormed_text "x"
    · exact ofDouble

end Engine

end SymbolicArith
