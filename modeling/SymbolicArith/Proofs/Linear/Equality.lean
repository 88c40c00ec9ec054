import Mathlib.Data.List.Nodup
import SymbolicArith.Proofs.Linear.LikeTerms
import SymbolicArith.Proofs.Reduction.Recasting

open SymbolicArith.Expr SymbolicArith.Outcome

-- Equality decides linear expressions. A linear expression settles to a sum with one term for its
-- constant and one for each of its symbols, as far as these are not 0; so whatever denotes the same
-- linear function settles to the same terms, in some order.
namespace SymbolicArith

namespace Expr

variable {e t : Expr} {rho : String → ℚ}

-- A term up to the order of its factors.
def key (t : Expr) : List String × ℚ := (names t.factors, scale t.factors)

theorem total_of_mem (distinct : (e.terms.map fun t => names t.factors).Nodup)
    (member : t ∈ e.terms) : e.total (names t.factors) = scale t.factors := by
  obtain ⟨before, after, split⟩ := List.append_of_mem member
  rw [split, List.map_append, List.map_cons, List.nodup_middle, ← List.map_append,
    List.nodup_cons] at distinct
  have others : (before ++ after).filter (fun o => names o.factors = names t.factors) = [] := by
    apply List.filter_eq_nil_iff.mpr
    intro o present same
    exact distinct.1 (List.mem_map.mpr ⟨o, present, of_decide_eq_true same⟩)
  rw [List.filter_append, List.append_eq_nil_iff] at others
  simp [total, split, others]

theorem mem_of_total (some : e.total symbols ≠ 0) : ∃ t ∈ e.terms, names t.factors = symbols := by
  by_contra none
  have empty : e.terms.filter (fun t => names t.factors = symbols) = [] := by
    apply List.filter_eq_nil_iff.mpr
    intro t member same
    exact none ⟨t, member, of_decide_eq_true same⟩
  exact some (by simp [total, empty])

theorem Linear.total_eq {u : Expr} (constants : e.constant = u.constant)
    (coefficients : ∀ name, e.coefficient name = u.coefficient name) (term : t.Term) :
    e.total (names t.factors) = u.total (names t.factors) := by
  rcases term.monomial.names_cases with none | ⟨name, one⟩
  · rw [none]
    exact constants
  · rw [one]
    exact coefficients name

theorem Atom.regular (atom : t.Atom) : t.Regular rho := by
  refine ⟨atom.exact, ?_⟩
  cases atom with
  | number | symbol => simp [DefinedNode]

theorem Term.regular (term : t.Term) : t.Regular rho := by
  cases term with
  | atom atom => exact atom.regular
  | product _ monomial => exact Regular.nary.mpr fun f member => (monomial.atoms f member).regular

theorem Linear.regular (linear : e.Linear) : e.Regular rho := by
  cases linear with
  | term term => exact term.regular
  | sum _ each => exact Regular.nary.mpr fun t member => (each t member).regular

end Expr

namespace Engine

variable {engine : Engine Outcome} {e s t u : Expr} {rho : String → ℚ}

section

variable (complete : Complete engine) (normal : Normal engine e) (condensed : e.Condensed)

include complete normal condensed

theorem Normal.summands : (∀ t ∈ e.terms, Normal engine t) ∧ Refused engine .sum e.terms := by
  cases condensed.linear with
  | term term => simpa [term.terms] using normal
  | sum => exact normal.nary_operands complete

-- No two terms are in the same symbols.
theorem Normal.names_nodup : (e.terms.map fun t => names t.factors).Nodup := by
  obtain ⟨normals, refused⟩ := normal.summands complete condensed
  rw [List.Nodup, List.pairwise_map]
  refine refused.imp_of_mem ?_
  intro x y inX inY none same
  exact complete.add_like_terms (normals x inX) (normals y inY) (condensed.short x inX)
    (condensed.short y inY) same none

theorem Normal.zero_alone (member : t ∈ e.terms) (none : scale t.factors = 0) :
    t = .zero ∧ e.terms = [.zero] := by
  obtain ⟨normals, refused⟩ := normal.summands complete condensed
  have short := condensed.short t member
  have unnamed : names t.factors = [] := by
    by_contra named
    exact ((normals t member).factors_perm complete short).2 named none
  have zero : t = .zero := by
    rw [(normals t member).eq_number complete short unnamed, none]
    rfl
  refine ⟨zero, ?_⟩
  have others : ∀ t ∈ e.terms, t.kind ≠ Nary.sum.kind := fun t member =>
    (condensed.short t member).term.kind_ne_sum
  by_cases long : 2 ≤ e.terms.length
  · have number : t.IsNumber 0 := by simp [zero, Expr.zero, Expr.ofInt]
    exact absurd number (refused.ne_literal complete others long member).1
  · have some := List.length_pos_of_mem member
    obtain ⟨o, single⟩ := List.length_eq_one_iff.mp (show e.terms.length = 1 by omega)
    rw [single, List.mem_singleton] at member
    rw [single, ← member, zero]

end

theorem Normal.key_mem (complete : Complete engine) (left : Normal engine s)
    (right : Normal engine u) (ofS : s.Condensed) (ofU : u.Condensed)
    (constants : s.constant = u.constant)
    (coefficients : ∀ name, s.coefficient name = u.coefficient name) (member : t ∈ s.terms) :
    t.key ∈ u.terms.map key := by
  have distinct := left.names_nodup complete ofS
  have distinct' := right.names_nodup complete ofU
  have totals := Linear.total_eq constants coefficients (ofS.short t member).term
  rw [total_of_mem distinct member] at totals
  by_cases none : scale t.factors = 0
  · -- all coefficients are 0, and so is whatever term there is on the other side
    obtain ⟨rfl, alone⟩ := left.zero_alone complete ofS member none
    obtain ⟨v, present⟩ := List.exists_mem_of_ne_nil _ (Linear.terms_ne_nil ofU.linear)
    have totals := Linear.total_eq constants coefficients (ofU.short v present).term
    rw [total_of_mem distinct' present] at totals
    have vanishes : s.total (names v.factors) = 0 := by
      by_contra some
      obtain ⟨o, inS, same⟩ := mem_of_total some
      have zero : scale o.factors = 0 := by
        rw [alone, List.mem_singleton] at inS
        rw [inS, none]
      rw [← same, total_of_mem distinct inS] at some
      exact some zero
    obtain ⟨rfl, _⟩ := right.zero_alone complete ofU present (totals.symm.trans vanishes)
    exact List.mem_map_of_mem present
  · obtain ⟨v, present, same⟩ := mem_of_total (totals ▸ none)
    rw [← same, total_of_mem distinct' present] at totals
    exact List.mem_map.mpr ⟨v, present, by rw [key, key, same, totals]⟩

theorem Normal.keys_perm (complete : Complete engine) (left : Normal engine s)
    (right : Normal engine u) (ofS : s.Condensed) (ofU : u.Condensed)
    (constants : s.constant = u.constant)
    (coefficients : ∀ name, s.coefficient name = u.coefficient name) :
    (s.terms.map key).Perm (u.terms.map key) := by
  have distinct : ∀ {e}, Normal engine e → e.Condensed → (e.terms.map key).Nodup := by
    intro e normal condensed
    apply List.Nodup.of_map Prod.fst
    rw [List.map_map]
    exact normal.names_nodup complete condensed
  refine (List.perm_ext_iff_of_nodup (distinct left ofS) (distinct right ofU)).mpr fun k => ?_
  constructor
  · intro inS
    obtain ⟨t, member, rfl⟩ := List.mem_map.mp inS
    exact left.key_mem complete right ofS ofU constants coefficients member
  · intro inU
    obtain ⟨t, member, rfl⟩ := List.mem_map.mp inU
    exact right.key_mem complete left ofU ofS constants.symm (fun name => (coefficients name).symm)
      member

-- Terms with the same factors are equal, and so are sums with the same terms.
theorem Normal.isEqual_of_keys (complete : Complete engine) (left : Normal engine s)
    (right : Normal engine u) (ofS : s.Condensed) (ofU : u.Condensed)
    (perm : (s.terms.map key).Perm (u.terms.map key)) : Equal engine s u := by
  have normalS := (left.summands complete ofS).1
  have normalU := (right.summands complete ofU).1
  have keyed : List.Forall₂ (fun k t => k = key t) (u.terms.map key) u.terms := by
    rw [List.forall₂_map_left_iff]
    exact List.forall₂_same.mpr fun _ _ => rfl
  obtain ⟨zs, same, order⟩ := List.perm_comp_forall₂ perm keyed
  rw [List.forall₂_map_left_iff] at same
  have paired : engine.Pairs s.terms zs := by
    refine pairs_imp same fun x inX y inY equal => ?_
    have inY := order.subset inY
    obtain ⟨symbols, numbers⟩ := Prod.mk.inj equal
    exact (normalS x inX).isEqual_of_factors complete (normalU y inY) (ofS.short x inX)
      (ofU.short y inY) symbols numbers
  have lengths := perm.length_eq
  simp only [List.length_map] at lengths
  cases ofS.linear with
  | term termS =>
    cases ofU.linear with
    | term termU =>
      rw [termS.terms] at paired
      rw [termU.terms, List.perm_singleton] at order
      cases order
      exact (List.forall₂_cons.mp paired).1
    | sum long =>
      rw [termS.terms] at lengths
      simp only [terms, List.length_singleton] at lengths
      omega
  | sum long =>
    cases ofU.linear with
    | term termU =>
      rw [termU.terms] at lengths
      simp only [terms, List.length_singleton] at lengths
      omega
    | sum => exact complete.isEqual_of_agree left right (.nary paired order)

-- A linear expression is equal to what it settles to, and that denotes the same function.
theorem Complete.settled_equal (complete : Complete engine)
    (sound : ∀ rho, Sound rho engine) (linear : t.Linear) :
    ∃ s, Normal engine s ∧ s.Condensed ∧ Equal engine t s ∧ t.constant = s.constant ∧
      ∀ name, t.coefficient name = s.coefficient name := by
  obtain ⟨s, settled⟩ := complete.settledFinishes linear.exact
  obtain ⟨normal, condensed⟩ := complete.settled_linear linear settled
  have equal : Equal engine t s := complete.isEqual_own_settled linear.exact settled
  refine ⟨s, normal, condensed, equal, linear.denotes_of_value condensed.linear fun rho => ?_⟩
  exact (sound rho).isEqual linear.regular condensed.linear.regular equal

theorem Complete.isEqual_linear (complete : Complete engine) (sound : ∀ rho, Sound rho engine)
    (left : t.Linear) (right : u.Linear) : Equal engine t u ↔
      t.constant = u.constant ∧ ∀ name, t.coefficient name = u.coefficient name := by
  constructor
  · intro equal
    apply left.denotes_of_value right
    intro rho
    exact (sound rho).isEqual left.regular right.regular equal
  · rintro ⟨constants, coefficients⟩
    obtain ⟨s, normalS, ofS, equalS, constantS, coefficientS⟩ := complete.settled_equal sound left
    obtain ⟨v, normalV, ofV, equalV, constantV, coefficientV⟩ := complete.settled_equal sound right
    have keys := normalS.keys_perm complete normalV ofS ofV
      (constantS.symm.trans (constants.trans constantV))
      fun name => (coefficientS name).symm.trans ((coefficients name).trans (coefficientV name))
    have between := normalS.isEqual_of_keys complete normalV ofS ofV keys
    have back := complete.symm right.exact normalV.exact equalV
    exact complete.chain left.exact normalS.exact normalV.exact right.exact equalS between back

theorem Complete.isEqual_of_values (complete : Complete engine) (sound : ∀ rho, Sound rho engine)
    (left : t.Linear) (right : u.Linear) (same : ∀ rho, t.value rho = u.value rho) :
    Equal engine t u :=
  (complete.isEqual_linear sound left right).mpr (left.denotes_of_value right same)

-- Under the standard weights equality decides linear expressions, in whichever form their numbers
-- are written: it always answers, and with yes exactly if the two have one constant and the same
-- coefficient for every symbol.
theorem isEqual_decides_linear {config : Config} (standard : config.Standard)
    (left : t.remade.Linear) (right : u.remade.Linear) :
    ∃ equal, Answers config (·.isEqual t u) equal ∧
      (equal = true ↔
        t.constant = u.constant ∧ ∀ name, t.coefficient name = u.coefficient name) := by
  have complete := unbounded_complete standard
  obtain ⟨equal, ran⟩ := complete.compares left.exact right.exact
  have decides := complete.isEqual_linear (fun _ => unbounded_sound config) left right
  simp only [constant_remade, coefficient_remade] at decides
  refine ⟨equal, answers_isEqual.mpr (((unbounded_remade config).isEqual t u).symm.trans ran), ?_⟩
  rw [← decides, Equal, ran, done.injEq]

-- The sum 2 * x + 3 + x is 3 + x * 3, also with 3 as a ratio, and not 3 + x * 2.
theorem isEqual_decides_linear_of_likes :
    Answers {} (·.isEqual (sum [product [ofInt 2, symbol "x"], ofInt 3, symbol "x"])
        (sum [ofInt 3, product [symbol "x", number (.ratio 3)]])) true ∧
      Answers {} (·.isEqual (sum [product [ofInt 2, symbol "x"], ofInt 3, symbol "x"])
        (sum [ofInt 3, product [symbol "x", ofInt 2]])) false := by
  have standard : ({} : Config).Standard := by decide
  have left : (sum [product [ofInt 2, symbol "x"], ofInt 3, symbol "x"]).remade.Linear := by decide
  have same : (sum [ofInt 3, product [symbol "x", number (.ratio 3)]]).remade.Linear := by decide
  have other : (sum [ofInt 3, product [symbol "x", ofInt 2]]).remade.Linear := by decide
  obtain ⟨equal, answers, decides⟩ := isEqual_decides_linear standard left same
  obtain ⟨equal', answers', decides'⟩ := isEqual_decides_linear standard left other
  have yes : equal = true := by
    refine decides.mpr ⟨?_, fun name => ?_⟩
    · simp [constant, total, terms, factors, ofInt]
    · by_cases named : "x" = name
      · have three : (2 : ℚ) + 1 = 3 := by norm_num
        simp [coefficient, total, terms, factors, ofInt, named, three]
      · simp [coefficient, total, terms, factors, ofInt, named]
  have no : equal' = false := by
    apply Bool.eq_false_iff.mpr
    intro wrong
    have coefficients := (decides'.mp wrong).2 "x"
    simp [coefficient, total, terms, factors, ofInt] at coefficients
  exact ⟨yes ▸ answers, no ▸ answers'⟩

end Engine

end SymbolicArith
