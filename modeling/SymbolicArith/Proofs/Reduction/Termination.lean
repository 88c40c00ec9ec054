import SymbolicArith.Operations
import SymbolicArith.Proofs.Reduction.Chains
import SymbolicArith.Proofs.Reduction.Growth
import SymbolicArith.Proofs.Reduction.Limit

open SymbolicArith.Expr SymbolicArith.Outcome Relation

-- Reductions end. Under the standard weights every operation has an answer at every depth above
-- twice the mass of its operands: the trees that a combination makes up on its way are lighter than
-- the plain node of its operands, or as heavy but a product where that was a sum.
namespace SymbolicArith

-- How deep the reduction of a tree may go. A sum goes one level deeper than a product of its mass.
def Expr.demand (e : Expr) : Nat := 2 * e.mass + if e.kind = .sum then 1 else 0

theorem Expr.demand_le (e : Expr) : e.demand ≤ 2 * e.mass + 1 := by
  unfold demand
  split <;> omega

theorem Expr.le_demand (e : Expr) : 2 * e.mass ≤ e.demand := Nat.le_add_right _ _

theorem Expr.demand_nary (op : Nary) (es : List Expr) :
    (nary op es).demand = 2 * (1 + masses es) + if Operator.nary op = .sum then 1 else 0 := by
  cases op <;> simp [demand, Expr.kind, Nary.kind]

theorem Nary.demand_collect_le (es : List Expr) :
    (Nary.product.collect es).demand ≤ 2 * (1 + masses es) := by
  match es with
  | [] => simp [collect, demand, ofInt, Expr.kind]
  | [e] =>
    have bound := e.demand_le
    simp only [collect, masses_cons, masses_nil]
    omega
  | _ :: _ :: _ => simp [collect, demand, Expr.kind, Nary.kind]

namespace Engine

-- An engine under the standard weights whose answers are exact and no heavier than what was asked.
structure Tame (engine : Engine Outcome) : Prop where
  standard : engine.config.Standard
  neverGrows : engine.NeverGrows
  exact : ∀ {e r}, e.Exact → engine.reduce e = .done r → r.Exact
  settled : ∀ {e r}, e.Exact → engine.settle e = .done r → r.Exact ∧ r.mass ≤ e.mass

theorem within_tame {config : Config} (standard : config.Standard) (depth : Nat) :
    (within config depth).Tame where
  standard := by simpa using standard
  neverGrows := within_neverGrows standard depth
  exact := reduce_exact
  settled := by
    induction depth with
    | zero => exact nofun
    | succ depth ih =>
      intro e r exact run
      obtain ⟨again, reduced, answer⟩ := settleStep_done run
      split at answer
      · obtain ⟨exact', light⟩ := ih (reduce_exact exact reduced) answer
        exact ⟨exact', light.trans (within_neverGrows standard depth _ _ reduced)⟩
      · subst answer
        exact ⟨exact, Nat.le_refl _⟩

-- An engine that answers whatever demands less than its room.
structure Capable (engine : Engine Outcome) (room : Nat) : Prop extends Tame engine where
  reduce : ∀ {e}, e.Exact → e.demand < room → (engine.reduce e).Finishes
  settle : ∀ {e}, e.Exact → 2 * e.mass + 2 < room → (engine.settle e).Finishes
  isEqual : ∀ {x y}, x.Exact → y.Exact → 2 * (x.mass + y.mass) + 1 < room →
    (engine.isEqual x y).Finishes

variable {engine : Engine Outcome} {op : Operator} {x y e : Expr} {xs ys es : List Expr}

namespace Capable

variable {room : Nat}

theorem isLiteral (capable : Capable engine room) (exact : x.Exact) (n : Int)
    (enough : 2 * (x.mass + 1) + 1 < room) : (engine.isLiteral x n).Finishes :=
  finishes_chained.isLiteral (capable.isEqual exact (exact_ofInt n) (by simpa using enough))

theorem factorSum (capable : Capable engine room) (left : x.Exact) (right : y.Exact)
    (pairs : ∀ a ∈ x.operands, ∀ b ∈ y.operands, 2 * (a.mass + b.mass) + 1 < room)
    (enough : ∀ {found taken}, Splits engine x.operands y.operands found taken →
      found.common ≠ [] → found.rests.demand < room ∧
        2 * (found.rests.mass + masses found.common) < room) :
    (engine.factorSum x y).Finishes := by
  apply finishes_chained.factorSum
  · apply finishes_chained.split
    intro a inX b inY
    exact capable.isEqual (left.operand inX) (right.operand inY) (pairs a inX b inY)
  · intro found taken splits some
    obtain ⟨ofRests, ofFactored⟩ := enough splits some
    obtain ⟨common, rests⟩ := closed_exact.parts left right splits
    refine ⟨capable.reduce rests ofRests, ?_⟩
    intro reduced ran lighter
    have lighter := (lighter_iff capable.standard).mp lighter
    have exact := closed_exact.join_pair .product (capable.exact rests ran) common
    have spliced := Nary.product.masses_spliced_pair_le reduced some
    have bound : (found.factored reduced).demand ≤ _ := Nary.demand_collect_le _
    exact capable.reduce exact (by omega)

theorem mergePowers (capable : Capable engine room) (left : (power base exponent).Exact)
    (right : (power base' exponent').Exact) (bases : 2 * (base.mass + base'.mass) + 1 < room)
    (exponents : 2 * (1 + (exponent.mass + exponent'.mass)) + 1 < room) :
    (engine.mergePowers base exponent base' exponent').Finishes := by
  obtain ⟨ofBase, ofExponent⟩ := exact_power.mp left
  obtain ⟨ofBase', ofExponent'⟩ := exact_power.mp right
  have joined := Nary.sum.mass_join_pair_le exponent exponent'
  have demand := (Nary.sum.join [exponent, exponent']).demand_le
  have exact := closed_exact.join_pair .sum ofExponent ofExponent'
  exact finishes_chained.mergePowers (capable.isEqual ofBase ofBase' bases)
    (capable.reduce exact (by omega))

-- The room that combining two operands, or a pass over several, needs for this mass of operands.
abbrev Suffices (room : Nat) (op : Operator) (mass : Nat) : Prop :=
  2 * (1 + mass) + (if op = .sum then 1 else 0) ≤ room

theorem Suffices.of_le {total : Nat} (enough : 2 * (1 + total) + 1 ≤ room) :
    Suffices room op total := by
  unfold Suffices
  split <;> omega

theorem factorOutSum (capable : Capable engine room) (left : x.Exact) (right : y.Exact)
    (own : x.kind = .product ∨ y.kind = .product) (enough : Suffices room .sum (x.mass + y.mass)) :
    (engine.factorSum (viewedAs .product x) (viewedAs .product y)).Finishes := by
  simp only [Suffices, if_true] at enough
  refine capable.factorSum (closed_exact.viewedAs .product left)
    (closed_exact.viewedAs .product right) ?_ ?_
  · intro a inX b inY
    have ofX := view_operand_mass_le inX
    have ofY := view_operand_mass_le inY
    omega
  · intro found taken splits some
    obtain ⟨rests, both⟩ := splits.mass_bounds own some
    have joined := rests_mass_le found
    have demand := found.rests.demand_le
    omega

theorem factorOutPower (capable : Capable engine room) (left : x.Exact) (right : y.Exact)
    (own : x.kind = .power ∨ y.kind = .power)
    (enough : Suffices room .product (x.mass + y.mass)) :
    (engine.factorOutPower (viewedAs .power x) (viewedAs .power y)).Finishes := by
  obtain ⟨base, exponent, viewX⟩ := viewedAs_power x
  obtain ⟨base', exponent', viewY⟩ := viewedAs_power y
  have ofX := view_power_mass viewX
  have ofY := view_power_mass viewY
  have exactX := closed_exact.viewedAs .power left
  have exactY := closed_exact.viewedAs .power right
  rw [viewX] at exactX
  rw [viewY] at exactY
  rw [viewX, viewY]
  simp only [Suffices] at enough
  refine capable.mergePowers exactX exactY (by omega) ?_
  rcases own with own | own
  · have small := ofX.2.2 own
    omega
  · have small := ofY.2.2 own
    omega

theorem alike (capable : Capable engine room) (left : x.Exact) (right : y.Exact)
    (compositeX : x.isTerminal = false) (compositeY : y.isTerminal = false)
    (enough : 2 * (x.mass + y.mass) < room) :
    (engine.splitOperands x y).Finishes ∧ (engine.factorSum x y).Finishes := by
  have pairs : ∀ a ∈ x.operands, ∀ b ∈ y.operands, 2 * (a.mass + b.mass) + 1 < room := by
    intro a inX b inY
    have ofX := operand_mass_lt inX
    have ofY := operand_mass_lt inY
    omega
  constructor
  · apply finishes_chained.split
    intro a inX b inY
    exact capable.isEqual (left.operand inX) (right.operand inY) (pairs a inX b inY)
  · apply capable.factorSum left right pairs
    intro found taken splits some
    have ofX := splits.massesX
    have ofY := splits.massesY
    have totalX := masses_operands compositeX
    have totalY := masses_operands compositeY
    have length := splits.paired.length_eq
    have long := List.length_pos_iff.mpr some
    have commons := length_le_masses found.common
    have takens := length_le_masses taken
    have joinedX := Nary.product.mass_join_le found.restX
    have joinedY := Nary.product.mass_join_le found.restY
    have rests := rests_mass_le found
    have demand := found.rests.demand_le
    omega

theorem factor (capable : Capable engine room) (left : x.Exact) (right : y.Exact)
    (enough : Suffices room op (x.mass + y.mass)) : (engine.factor op x y).Finishes := by
  apply finishes_chained.factor
  · intro _
    simp only [Suffices] at enough
    exact capable.isEqual left right (by omega)
  · rintro rfl own
    exact capable.factorOutSum left right own enough
  · rintro rfl own
    exact capable.factorOutPower left right own enough

theorem combine (capable : Capable engine room) (left : x.Exact) (right : y.Exact)
    (enough : Suffices room op (x.mass + y.mass)) : (engine.combine op x y).Finishes := by
  have positiveX := mass_pos x
  have positiveY := mass_pos y
  refine finishes_chained.combine left right ?_ (capable.factor left right enough)
  intro rule member
  simp only [Suffices] at enough
  rcases rule_tested member with tested | tested
  · exact tested ▸ capable.isLiteral left _ (by omega)
  · exact tested ▸ capable.isLiteral right _ (by omega)

theorem merge (capable : Capable engine room) (left : x.Exact) (right : y.Exact)
    (enough : Suffices room op (x.mass + y.mass)) : (engine.merge op x y).Finishes :=
  (capable.combine left right enough).bind fun _ _ => .done _

-- Exact operands that a pass has room for.
def Fits (room : Nat) (op : Operator) (es : List Expr) : Prop :=
  (∀ e ∈ es, e.Exact) ∧ Suffices room op (masses es)

theorem Fits.of_le (fits : Fits room op es) (exact : ∀ x ∈ xs, x.Exact)
    (light : masses xs ≤ masses es) : Fits room op xs := by
  obtain ⟨_, enough⟩ := fits
  simp only [Suffices] at enough
  exact ⟨exact, by simp only [Suffices]; omega⟩

theorem absorb (capable : Capable engine room) (fits : Fits room op (x :: ys)) :
    (engine.absorb op x ys).Finishes := by
  refine finishes_chained.absorb (fun x ys => Fits room op (x :: ys)) ?_ fits
  intro x y ys fits
  have ⟨exact, enough⟩ := fits
  have left := exact x (by simp)
  have right := exact y (by simp)
  have others : ∀ e ∈ ys, e.Exact := fun e member => exact e (by simp [member])
  simp only [Suffices, masses_cons] at enough
  refine ⟨capable.merge left right (by simp only [Suffices]; omega), ?_, ?_⟩
  · exact fits.of_le (by simpa using ⟨left, others⟩) (by simp only [masses_cons]; omega)
  · intro merged ran
    have kept := closed_exact.merge capable.exact left right ran
    have light := merge_mass_lt capable.standard ran
    have plain := op.mass_plain_le x y
    exact fits.of_le (by simpa using ⟨kept, others⟩) (by simp only [masses_cons]; omega)

theorem sweep (capable : Capable engine room) (fits : Fits room op es) :
    (engine.sweep op turns es).Finishes := by
  refine finishes_chained.sweep (Fits room op) ?_ fits
  intro x ys fits
  refine ⟨capable.absorb fits, fun ran => ?_⟩
  have run := absorb_merges [] ran
  have light := pass_masses_le capable.standard run
  have kept := closed_exact.pass capable.exact run fits.1
  simp only [List.nil_append, masses_cons] at light
  exact fits.of_le (fun e member => kept e (by simp [member])) (by simp only [masses_cons]; omega)

theorem condense (capable : Capable engine room) {op : Nary} (exact : ∀ e ∈ es, e.Exact)
    (enough : Suffices room (.nary op) (masses es)) : (engine.condense op es).Finishes :=
  (capable.sweep ⟨exact, enough⟩).bind fun _ _ => .done _

theorem condensePower (capable : Capable engine room) (left : x.Exact) (right : y.Exact)
    (enough : Suffices room .power (x.mass + y.mass)) : (engine.condensePower x y).Finishes :=
  finishes_chained.condensePower (capable.merge left right enough)

theorem reduceStep (capable : Capable engine room) (exact : e.Exact) (enough : e.demand ≤ room) :
    (engine.reduceStep e).Finishes := by
  have operand : ∀ o ∈ e.operands, (engine.reduce o).Finishes := by
    intro o member
    have lighter := operand_mass_lt member
    have demand := o.demand_le
    have least := e.le_demand
    exact capable.reduce (exact.operand member) (by omega)
  cases e with
  | number | symbol => exact .done _
  | nary op es =>
    apply (finishes_chained.mapM operand).bind
    intro reduced ran
    have below := mapM_eq_done.mp ran
    have light : masses reduced ≤ masses es := capable.neverGrows.operands below
    have exact' : ∀ r ∈ reduced, r.Exact := by
      intro r member
      obtain ⟨o, present, ran⟩ := pair_of_mem_right below member
      exact capable.exact (exact.operand present) ran
    have suffices' : Suffices room (.nary op) (masses reduced) := by
      have sum := demand_nary op es
      simp only [Suffices]
      omega
    exact (capable.condense exact' suffices').bind fun _ _ => .done _
  | power base exponent =>
    apply (operand base (by simp [operands])).bind
    intro b ofBase
    apply (operand exponent (by simp [operands])).bind
    intro e ofExponent
    have left := capable.exact (exact.operand (by simp [operands])) ofBase
    have right := capable.exact (exact.operand (by simp [operands])) ofExponent
    have lightBase := capable.neverGrows _ _ ofBase
    have lightExponent := capable.neverGrows _ _ ofExponent
    have suffices' : Suffices room .power (b.mass + e.mass) := by
      have least := (Expr.power base exponent).le_demand
      simp only [mass_power] at least
      simp [Suffices]
      omega
    exact (capable.condensePower left right suffices').bind fun _ _ => .done _

theorem condense_kept (capable : Capable engine room) {op : Nary} (exact : ∀ e ∈ es, e.Exact)
    {result : Expr × List MergeStep} (run : engine.condense op es = .done result) :
    result.1.Exact ∧ result.1.mass ≤ 1 + masses es := by
  obtain ⟨⟨rest, steps⟩, pass, run⟩ := bind_eq_done.mp run
  cases done.inj run
  have run := (sweep_passed (Nat.le_refl _) pass).merges
  have light := pass_masses_le capable.standard run
  have joined := op.mass_join_le rest
  exact ⟨Nary.join_exact (closed_exact.pass capable.exact run exact), by dsimp only; omega⟩

theorem condensePower_kept (capable : Capable engine room) (left : x.Exact) (right : y.Exact)
    {result : Expr × List MergeStep} (run : engine.condensePower x y = .done result) :
    result.1.Exact ∧ result.1.mass ≤ 1 + (x.mass + y.mass) := by
  obtain ⟨answer, ran, run⟩ := bind_eq_done.mp run
  cases answer with
  | some merged =>
    cases done.inj run
    have light := merge_mass_lt capable.standard ran
    have plain := Operator.power.mass_plain_le x y
    exact ⟨closed_exact.merge capable.exact left right ran, by dsimp only; omega⟩
  | none =>
    cases done.inj run
    exact ⟨exact_power.mpr ⟨left, right⟩, by simp⟩

-- A traced reduction descends to the leaves in one level of the engine, and every pass in it meets
-- reduced operands that are no heavier than the operands they come from.
def TracedWell (engine : Engine Outcome) (e : Expr) : Prop :=
  ∃ result, engine.reduceTraced e = .done result ∧ result.1.Exact ∧ result.1.mass ≤ e.mass

theorem reduceAllTraced (each : ∀ e ∈ es, TracedWell engine e) :
    ∃ result, engine.reduceAllTraced es = .done result ∧ (∀ e ∈ result.1, e.Exact) ∧
      masses result.1 ≤ masses es := by
  induction es with
  | nil => exact ⟨_, rfl, by simp, Nat.le_refl _⟩
  | cons e es ih =>
    obtain ⟨first, ran, exact, light⟩ := each e (by simp)
    obtain ⟨rest, ran', exact', light'⟩ := ih fun o member => each o (by simp [member])
    refine ⟨(first.1 :: rest.1, first.2 ++ rest.2), ?_, ?_, ?_⟩
    · simp [Engine.reduceAllTraced, ran, ran']
    · simpa using ⟨exact, exact'⟩
    · simp only [masses_cons]
      omega

theorem reduceTraced (capable : Capable engine room) (exact : e.Exact)
    (enough : e.demand ≤ room) : TracedWell engine e := by
  induction e with
  | number | symbol => exact ⟨_, rfl, exact, Nat.le_refl _⟩
  | nary op es ih =>
    have each : ∀ e ∈ es, TracedWell engine e := by
      intro e member
      have lighter : e.mass < (nary op es).mass := operand_mass_lt member
      have demand := e.demand_le
      have least := (nary op es).le_demand
      exact ih e member (exact.operand member) (by omega)
    obtain ⟨reduced, ran, exact', light⟩ := reduceAllTraced each
    have suffices' : Suffices room (.nary op) (masses reduced.1) := by
      have sum := demand_nary op es
      simp only [Suffices]
      omega
    obtain ⟨result, pass⟩ := capable.condense exact' suffices'
    obtain ⟨kept, small⟩ := capable.condense_kept exact' pass
    refine ⟨(result.1, reduced.2 ++ result.2), ?_, kept, ?_⟩
    · simp [Engine.reduceTraced, ran, pass]
    · dsimp only
      rw [mass_nary]
      omega
  | power base exponent ofBase ofExponent =>
    obtain ⟨exactBase, exactExponent⟩ := exact_power.mp exact
    have least := (power base exponent).le_demand
    have demandBase := base.demand_le
    have demandExponent := exponent.demand_le
    simp only [mass_power] at least
    obtain ⟨b, ran, left, light⟩ := ofBase exactBase (by omega)
    obtain ⟨e, ran', right, light'⟩ := ofExponent exactExponent (by omega)
    have suffices' : Suffices room .power (b.1.mass + e.1.mass) := by
      simp [Suffices]
      omega
    obtain ⟨result, pass⟩ := capable.condensePower left right suffices'
    obtain ⟨kept, small⟩ := capable.condensePower_kept left right pass
    refine ⟨(result.1, b.2 ++ e.2 ++ result.2), ?_, kept, ?_⟩
    · simp [Engine.reduceTraced, ran, ran', pass]
    · dsimp only
      rw [mass_power]
      omega

theorem settleStep (capable : Capable engine room) (exact : e.Exact)
    (enough : 2 * e.mass + 2 ≤ room) : (engine.settleStep e).Finishes := by
  have demand := e.demand_le
  apply (capable.reduce exact (by omega)).bind
  intro again ran
  split
  · rename_i lighter
    have lighter := (lighter_iff capable.standard).mp lighter
    exact capable.settle (capable.exact exact ran) (by omega)
  · exact .done _

theorem settledFinishes (capable : Capable engine room) (exact : e.Exact)
    (enough : 2 * e.mass + 2 < room) : (engine.settled e).Finishes := by
  have demand := e.demand_le
  apply (capable.reduce exact (by omega)).bind
  intro reduced ran
  have light := capable.neverGrows _ _ ran
  exact capable.settle (capable.exact exact ran) (by omega)

theorem settled_kept (capable : Capable engine room) (exact : e.Exact)
    (run : engine.settled e = .done r) : r.Exact ∧ r.mass ≤ e.mass := by
  obtain ⟨reduced, ran, run⟩ := bind_eq_done.mp run
  obtain ⟨exact', light⟩ := capable.settled (capable.exact exact ran) run
  exact ⟨exact', Nat.le_trans light (capable.neverGrows _ _ ran)⟩

theorem isEqualStep (capable : Capable engine room) (left : x.Exact) (right : y.Exact)
    (enough : 2 * (x.mass + y.mass) + 1 ≤ room) : (engine.isEqualStep x y).Finishes := by
  have positiveX := mass_pos x
  have positiveY := mass_pos y
  apply (capable.settledFinishes left (by omega)).bind
  intro x' ofX
  apply (capable.settledFinishes right (by omega)).bind
  intro y' ofY
  obtain ⟨exactX, lightX⟩ := capable.settled_kept left ofX
  obtain ⟨exactY, lightY⟩ := capable.settled_kept right ofY
  apply finishes_chained.compare
  intro a inX b inY
  have lighterX := operand_mass_lt inX
  have lighterY := operand_mass_lt inY
  exact capable.isEqual (exactX.operand inX) (exactY.operand inY) (by omega)

end Capable

theorem within_capable {config : Config} (standard : config.Standard) (depth : Nat) :
    Capable (within config depth) depth := by
  induction depth with
  | zero => exact ⟨within_tame standard 0, nofun, nofun, nofun⟩
  | succ depth ih =>
    refine ⟨within_tame standard _, ?_, ?_, ?_⟩
    · exact fun exact enough => ih.reduceStep exact (by omega)
    · exact fun exact enough => ih.settleStep exact (by omega)
    · exact fun left right enough => ih.isEqualStep left right (by omega)

def checkOperator : Kind → Outcome Unit
  | .composite _ => .done ()
  | terminal => .failed (.misuse (.notAnOperator terminal))

def checkPowers (x y : Expr) : Outcome Unit :=
  if x.kind = .power ∧ y.kind = .power then .done () else .failed (.misuse .notPowers)

-- The operation is refused without any computation, or it terminates.
def Answered (config : Config) (bound : Nat) (check : Outcome Unit)
    (run : Engine Outcome → Outcome α) : Prop :=
  (check = .done () ∧ Terminates config bound run) ∨
    ∃ cause, check = .failed cause ∧ ∀ depth, run (within config depth) = .failed cause

-- Every operation on two trees has one answer at all depths from the bound on, and no pass is cut
-- short by the number of its turns.
structure Ends (config : Config) (bound : Nat) (x y : Expr) : Prop where
  reduce : Terminates config bound (·.reduce x)
  reduceTraced : Terminates config bound (·.reduceTraced x)
  settled : Terminates config bound (·.settled x)
  isEqual : Terminates config bound (·.isEqual x y)
  combine : ∀ kind, Answered config bound (checkOperator kind)
    (·.combineValues kind (.tree x) (.tree y))
  factor : ∀ op, Terminates config bound (·.factor op x y)
  findCommon : Answered config bound (checkAlike x y) (·.findCommon x y)
  factorOutSum : Answered config bound (checkAlike x y) (·.factorOutSum x y)
  factorOutPower : Answered config bound (checkPowers x y) (·.factorOutPower x y)
  turns : ∀ {engine : Engine Outcome} {op es turns}, es.length ≤ turns →
    engine.sweep op turns es = engine.sweep op es.length es

theorem Answered.of_checked {config : Config} {bound : Nat} {check : Outcome Unit}
    {inner : Engine Outcome → Outcome α} (decided : check ≠ .unfinished)
    (passed : check = .done () → Terminates config bound inner) :
    Answered config bound check fun engine => check >>= fun _ => inner engine := by
  cases check with
  | done => exact .inl ⟨rfl, passed rfl⟩
  | failed cause => exact .inr ⟨cause, rfl, fun _ => rfl⟩
  | unfinished => exact absurd rfl decided

theorem checkAlike_decided (x y : Expr) : checkAlike x y ≠ .unfinished := by
  unfold checkAlike
  split
  · exact nofun
  · split <;> exact nofun

theorem checkAlike_passed (passed : checkAlike x y = .done ()) :
    x.isTerminal = false ∧ y.isTerminal = false := by
  unfold checkAlike at passed
  split at passed
  · cases passed
  · rename_i composite
    simpa using composite

-- Under the standard weights every operation on two trees ends, or is refused at once.
theorem reduction_terminates {config : Config} {x y : Expr} (standard : config.Standard)
    (left : x.Exact) (right : y.Exact) : Ends config (2 * (x.mass + y.mass) + 3) x y := by
  have capable := within_capable standard (2 * (x.mass + y.mass) + 3)
  have demand := x.demand_le
  constructor
  · exact .of_finishes (fun below => below.reduce x) (capable.reduce left (by omega))
  · refine .of_finishes (fun below => below.reduceTraced x) ?_
    obtain ⟨result, ran, _⟩ := capable.reduceTraced left (by omega)
    exact ⟨result, ran⟩
  · exact .of_finishes (fun below => below.settled x) (capable.settledFinishes left (by omega))
  · exact .of_finishes (fun below => below.isEqual x y) (capable.isEqual left right (by omega))
  · intro kind
    cases kind with
    | number | symbol => exact .inr ⟨_, rfl, fun _ => rfl⟩
    | composite op =>
      have combined : (within config _).combine op x y |>.Finishes :=
        capable.combine left right (.of_le (by omega))
      exact .inl ⟨rfl, .of_finishes (fun below => below.combineValues _ _ _) combined⟩
  · intro op
    have finishes : ((within config _).factor op x y).Finishes :=
      capable.factor left right (.of_le (by omega))
    exact .of_finishes (fun below => below.factor op x y) finishes
  · apply Answered.of_checked (checkAlike_decided x y)
    intro passed
    obtain ⟨compositeX, compositeY⟩ := checkAlike_passed passed
    have finishes := (capable.alike left right compositeX compositeY (by omega)).1
    exact .of_finishes (fun below => below.split x.operands _) finishes
  · apply Answered.of_checked (checkAlike_decided x y)
    intro passed
    obtain ⟨compositeX, compositeY⟩ := checkAlike_passed passed
    have finishes := (capable.alike left right compositeX compositeY (by omega)).2
    exact .of_finishes (fun below => below.factorSum x y) finishes
  · by_cases powers : x.kind = .power ∧ y.kind = .power
    · have finishes := capable.factorOutPower left right (.inl powers.1) (.of_le (by omega))
      rw [viewedAs_own powers.1, viewedAs_own powers.2] at finishes
      exact .inl ⟨if_pos powers, .of_finishes (fun below => below.factorOutPower x y) finishes⟩
    · refine .inr ⟨_, if_neg powers, ?_⟩
      intro depth
      unfold factorOutPower
      split
      · exact absurd ⟨rfl, rfl⟩ powers
      · rfl
  · exact fun enough => sweep_turns enough (Nat.le_refl _)

-- Also where a sum is nested, a product is empty and an exponent is a symbol.
theorem reduction_terminates_of_nested :
    Ends {} 8015 (sum [sum [symbol "x", symbol "y"], product []])
      (power (symbol "x") (product [symbol "y", ofInt 0])) := by
  have left : (sum [sum [symbol "x", symbol "y"], product []]).Exact := by decide
  have right : (power (symbol "x") (product [symbol "y", ofInt 0])).Exact := by decide
  have standard : ({} : Config).Standard := by decide
  exact reduction_terminates standard left right

end Engine
end SymbolicArith
