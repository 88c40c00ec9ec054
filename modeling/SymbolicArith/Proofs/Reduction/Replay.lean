import SymbolicArith.Proofs.Reduction.Memo

open SymbolicArith.Outcome

-- Replaying a trace. A trace holds the merges of a reduction in the order in which its passes come
-- to them, so that the steps alone, with no engine at hand, lead from the tree to its reduction.
namespace SymbolicArith

abbrev Tape := StateM (List MergeStep)

namespace Tape

-- The result of the next step, if that is a merge of this pair; otherwise it stays on the tape.
def next (op : Operator) (x y : Expr) : Tape (Option Expr)
  | [] => (none, [])
  | step :: later =>
    if step.kind = op.kind ∧ step.left = x ∧ step.right = y then (some step.result, later)
    else (none, step :: later)

def absorb (op : Operator) (x : Expr) : List Expr → Tape (Expr × List Expr)
  | [] => return (x, [])
  | y :: ys => do
    match ← next op x y with
    | some merged => absorb op merged ys
    | none =>
      let (operand, rest) ← absorb op x ys
      return (operand, y :: rest)

def sweep (op : Operator) : Nat → List Expr → Tape (List Expr)
  | turns + 1, x :: ys => do
    let (operand, rest) ← absorb op x ys
    return operand :: (← sweep op turns rest)
  | _, es => return es

def condense (op : Nary) (operands : List Expr) : Tape Expr :=
  return op.join (← sweep (.nary op) operands.length operands)

def condensePower (base exponent : Expr) : Tape Expr :=
  return (← next .power base exponent).getD (.power base exponent)

mutual

-- The operands first, then the pairs of the node in the order of its pass.
def replay : Expr → Tape Expr
  | .number value => return .number value
  | .symbol name => return .symbol name
  | .nary op operands => do
    condense op (← replayAll operands)
  | .power base exponent => do
    let base ← replay base
    let exponent ← replay exponent
    condensePower base exponent

def replayAll : List Expr → Tape (List Expr)
  | [] => return []
  | e :: es => return (← replay e) :: (← replayAll es)

end

end Tape

namespace Engine

def Accepts (engine : Engine Outcome) (step : MergeStep) : Prop :=
  ∃ op, step.kind = op.kind ∧ engine.merge op step.left step.right = .done (some step.result)

-- Exactly these steps are taken from a tape that holds accepted ones, and this comes of it.
structure Told (engine : Engine Outcome) (tape : Tape α) (result : α) (steps : List MergeStep) :
    Prop where
  accepted : ∀ step ∈ steps, engine.Accepts step
  taken : ∀ later : List MergeStep, (∀ step ∈ later, engine.Accepts step) →
    tape (steps ++ later) = (result, later)

namespace Told

variable {engine : Engine Outcome} {op : Operator} {x y : Expr} {ys : List Expr}

theorem pure (engine : Engine Outcome) (result : α) : Told engine (pure result) result [] :=
  ⟨nofun, fun _ _ => rfl⟩

theorem bind {tape : Tape α} {then' : α → Tape β} (first : Told engine tape a steps)
    (rest : Told engine (then' a) b steps') : Told engine (tape >>= then') b (steps ++ steps') where
  accepted step member := by
    rcases List.mem_append.mp member with before | after
    · exact first.accepted step before
    · exact rest.accepted step after
  taken later accepted := by
    have ahead : ∀ step ∈ steps' ++ later, engine.Accepts step := by
      intro step member
      rcases List.mem_append.mp member with inside | after
      · exact rest.accepted step inside
      · exact accepted step after
    show (match tape (steps ++ steps' ++ later) with
      | (a, remaining) => then' a remaining) = _
    rw [List.append_assoc, first.taken _ ahead]
    exact rest.taken later accepted

theorem map {tape : Tape α} (change : α → β) (told : Told engine tape a steps) :
    Told engine (tape >>= fun a => Pure.pure (change a)) (change a) steps := by
  rw [← List.append_nil steps]
  exact told.bind (.pure engine (change a))

-- A merge that was accepted is the next step, and one that was not never is.
theorem next (merged : engine.merge op x y = .done (some r)) :
    Told engine (Tape.next op x y) (some r) [⟨op.kind, x, y, r⟩] where
  accepted step member := by
    rw [List.mem_singleton.mp member]
    exact ⟨op, rfl, merged⟩
  taken later _ := by simp [Tape.next]

theorem not_next (refused : engine.merge op x y = .done none) :
    Told engine (Tape.next op x y) none [] where
  accepted := nofun
  taken later accepted := by
    cases later with
    | nil => rfl
    | cons step later =>
      have other : ¬ (step.kind = op.kind ∧ step.left = x ∧ step.right = y) := by
        rintro ⟨sameKind, rfl, rfl⟩
        obtain ⟨op', ofKind, merged⟩ := accepted step (.head _)
        obtain rfl : op' = op := by simpa [Operator.kind] using ofKind.symm.trans sameKind
        rw [refused] at merged
        cases merged
      exact if_neg other

theorem absorb {absorbed : Absorbed} (ran : engine.absorb op x ys = .done absorbed) :
    Told engine (Tape.absorb op x ys) (absorbed.operand, absorbed.rest) absorbed.steps := by
  induction ys generalizing x absorbed with
  | nil =>
    cases ran
    exact .pure engine _
  | cons y ys ih =>
    obtain ⟨answer, merged, ran⟩ := bind_eq_done.mp ran
    cases answer with
    | some r =>
      obtain ⟨after, others, ended⟩ := bind_eq_done.mp ran
      cases ended
      exact (next merged).bind (ih others)
    | none =>
      obtain ⟨after, others, ended⟩ := bind_eq_done.mp ran
      cases ended
      exact (not_next merged).bind ((ih others).map fun (operand, rest) => (operand, y :: rest))

theorem sweep {turns : Nat} {es rest : List Expr} {steps : List MergeStep}
    (ran : engine.sweep op turns es = .done (rest, steps)) :
    Told engine (Tape.sweep op turns es) rest steps := by
  induction turns generalizing es rest steps with
  | zero =>
    cases ran
    exact .pure engine _
  | succ turns ih =>
    cases es with
    | nil =>
      cases ran
      exact .pure engine _
    | cons x ys =>
      obtain ⟨absorbed, first, ran⟩ := bind_eq_done.mp ran
      obtain ⟨⟨others, later⟩, second, ended⟩ := bind_eq_done.mp ran
      cases ended
      exact (absorb first).bind ((ih second).map (absorbed.operand :: ·))

theorem condense {op : Nary} {operands : List Expr}
    (ran : engine.condense op operands = .done (r, steps)) :
    Told engine (Tape.condense op operands) r steps := by
  obtain ⟨⟨rest, _⟩, swept, ended⟩ := bind_eq_done.mp ran
  cases ended
  exact (sweep swept).map op.join

theorem condensePower {base exponent : Expr}
    (ran : engine.condensePower base exponent = .done (r, steps)) :
    Told engine (Tape.condensePower base exponent) r steps := by
  obtain ⟨answer, merged, ran⟩ := bind_eq_done.mp ran
  cases answer with
  | some merger =>
    cases ran
    exact (next merged).map (·.getD (.power base exponent))
  | none =>
    cases ran
    exact (not_next merged).map (·.getD (.power base exponent))

theorem replayAll {es rs : List Expr} {steps : List MergeStep}
    (each : ∀ e ∈ es, ∀ {r steps}, engine.reduceTraced e = .done (r, steps) →
      Told engine (Tape.replay e) r steps)
    (ran : engine.reduceAllTraced es = .done (rs, steps)) :
    Told engine (Tape.replayAll es) rs steps := by
  induction es generalizing rs steps with
  | nil =>
    cases ran
    exact .pure engine []
  | cons e es ih =>
    obtain ⟨⟨r, before⟩, first, ran⟩ := bind_eq_done.mp ran
    obtain ⟨⟨others, later⟩, second, ended⟩ := bind_eq_done.mp ran
    cases ended
    have rest := ih (fun o member => each o (by simp [member])) second
    unfold Tape.replayAll
    exact (each e (by simp) first).bind (rest.map (r :: ·))

theorem replay {e r : Expr} {steps : List MergeStep}
    (ran : engine.reduceTraced e = .done (r, steps)) : Told engine (Tape.replay e) r steps := by
  induction e generalizing r steps with
  | number | symbol =>
    cases ran
    exact .pure engine _
  | nary op operands ih =>
    unfold reduceTraced at ran
    obtain ⟨⟨reduced, before⟩, below, ran⟩ := bind_eq_done.mp ran
    obtain ⟨⟨result, later⟩, here, ended⟩ := bind_eq_done.mp ran
    cases ended
    have operands : Told engine (Tape.replayAll operands) reduced before := replayAll ih below
    unfold Tape.replay
    exact operands.bind (condense here)
  | power base exponent ofBase ofExponent =>
    unfold reduceTraced at ran
    obtain ⟨⟨base', before⟩, first, ran⟩ := bind_eq_done.mp ran
    obtain ⟨⟨exponent', between⟩, second, ran⟩ := bind_eq_done.mp ran
    obtain ⟨⟨result, later⟩, here, ended⟩ := bind_eq_done.mp ran
    cases ended
    unfold Tape.replay
    rw [List.append_assoc]
    exact (ofBase first).bind ((ofExponent second).bind (condensePower here))

end Told

section

variable {engine : Engine Outcome}

theorem reduceAllTraced_fst {es : List Expr}
    (each : ∀ e ∈ es, Prod.fst <$> engine.reduceTraced e = engine.reduce e) :
    Prod.fst <$> engine.reduceAllTraced es = es.mapM engine.reduce := by
  induction es with
  | nil => rfl
  | cons e es ih =>
    unfold reduceAllTraced
    rw [List.mapM_cons, ← each e (by simp), ← ih fun o member => each o (by simp [member])]
    simp [map_done]

-- Tracing a reduction, which recalls nothing, does not change its result.
theorem reduceTraced_fst (stepwise : ∀ e, engine.reduce e = engine.reduceStep e) (e : Expr) :
    Prod.fst <$> engine.reduceTraced e = engine.reduce e := by
  induction e with
  | number | symbol =>
    rw [stepwise]
    rfl
  | nary op operands ih =>
    have below := reduceAllTraced_fst ih
    rw [stepwise]
    unfold reduceTraced reduceStep
    simp [← below, map_done]
  | power base exponent ofBase ofExponent =>
    rw [stepwise]
    unfold reduceTraced reduceStep
    simp [← ofBase, ← ofExponent, map_done]

end

variable {config : Config} {t r : Expr} {trace : Trace} {step : MergeStep} {steps : List MergeStep}

theorem reduceTraced_reduce (ran : (unbounded config).reduceTraced t = .done (r, steps)) :
    (unbounded config).reduce t = .done r := by
  rw [← reduceTraced_fst (unbounded_reduce config), ran]
  rfl

theorem answers_trace : Answers config (·.trace t) (r, trace) ↔ ∃ steps,
    (unbounded config).reduceTraced t = .done (r, steps) ∧ trace = ⟨some t, steps, some r⟩ := by
  rw [answers_iff ((unbounded_inStep config).trace t)]
  simp only [Engine.trace, bind_eq_done, pure_eq, done.injEq, Prod.mk.injEq]
  constructor
  · rintro ⟨⟨_, steps⟩, ran, rfl, rfl⟩
    exact ⟨steps, ran, rfl⟩
  · rintro ⟨steps, ran, rfl⟩
    exact ⟨(r, steps), ran, rfl, rfl⟩

theorem Accepts.combined (accepts : (unbounded config).Accepts step) : Answers config
    (·.combineValues step.kind (.tree step.left) (.tree step.right)) step.result := by
  obtain ⟨op, ofKind, merged⟩ := accepts
  rw [answers_iff ((unbounded_inStep config).combineValues _ _ _), ofKind]
  exact (merge_some merged).1

theorem Accepts.lighter (accepts : (unbounded config).Accepts step) : ∃ op : Operator,
    step.kind = op.kind ∧
      step.result.weight config < (op.plain step.left step.right).weight config := by
  obtain ⟨op, ofKind, merged⟩ := accepts
  exact ⟨op, ofKind, of_decide_eq_true (merge_some merged).2⟩

-- Each recorded merge is one that combining gives and that weighs less than the plain node, and
-- the steps alone, all of them, lead from the tree to its reduction.
structure Faithful (config : Config) (t r : Expr) (trace : Trace) : Prop where
  initial : trace.initial = some t
  final : trace.final = some r
  combined : ∀ step ∈ trace.steps, Answers config
    (·.combineValues step.kind (.tree step.left) (.tree step.right)) step.result
  lighter : ∀ step ∈ trace.steps, ∃ op : Operator, step.kind = op.kind ∧
    step.result.weight config < (op.plain step.left step.right).weight config
  replayed : Tape.replay t trace.steps = (r, [])

-- With any sound memo a reduction and its trace come out at depths enough.
theorem memoised_answers {memo : Memo} (sound : memo.Sound)
    (reduced : Answers config (·.reduce t) r) (traced : Answers config (·.trace t) (r, trace)) :
    ∃ bound, ∀ depth, bound ≤ depth →
      (∃ after, (ofDepth config depth : Engine Memoised).reduce t memo = .done (r, after)) ∧
      ∃ after, (ofDepth config depth : Engine Memoised).trace t memo = .done ((r, trace), after) := by
  obtain ⟨bound, ran⟩ := reduced
  obtain ⟨bound', ran'⟩ := traced
  refine ⟨max bound bound', fun depth le => ?_⟩
  have held := ofDepth_recalling config depth
  have follows := ofDepth_watching config depth
  exact ⟨memoised_eq_done sound (held.reduce t) (follows.reduce t) (ran depth (by omega)),
    memoised_eq_done sound (held.trace t) (follows.trace t) (ran' depth (by omega))⟩

-- Reductions have the results of their traces, with or without a memo, and traces are faithful.
theorem trace_faithful (config : Config) (t : Expr) :
    (∀ r, Answers config (·.reduce t) r ↔ ∃ trace, Answers config (·.trace t) (r, trace)) ∧
    ∀ r trace, Answers config (·.trace t) (r, trace) → Faithful config t r trace ∧
      ∀ memo : Memo, memo.Sound → ∃ bound, ∀ depth, bound ≤ depth →
        (∃ after, (ofDepth config depth : Engine Memoised).reduce t memo = .done (r, after)) ∧
        ∃ after, (ofDepth config depth : Engine Memoised).trace t memo =
          .done ((r, trace), after) := by
  have sameResult : ∀ r, Answers config (·.reduce t) r ↔
      ∃ trace, Answers config (·.trace t) (r, trace) := by
    intro r
    rw [answers_reduce, ← reduceTraced_fst (unbounded_reduce config), map_eq_done]
    simp only [answers_trace]
    constructor
    · rintro ⟨⟨_, steps⟩, ran, rfl⟩
      exact ⟨_, steps, ran, rfl⟩
    · rintro ⟨_, steps, ran, _⟩
      exact ⟨(r, steps), ran, rfl⟩
  refine ⟨sameResult, fun r trace traced => ?_⟩
  have reduced := (sameResult r).mpr ⟨trace, traced⟩
  refine ⟨?_, fun memo sound => memoised_answers sound reduced traced⟩
  obtain ⟨steps, ran, rfl⟩ := answers_trace.mp traced
  have told := Told.replay ran
  refine ⟨rfl, rfl, fun step member => (told.accepted step member).combined,
    fun step member => (told.accepted step member).lighter, ?_⟩
  simpa using told.taken [] nofun

-- In x * x + x * x the products are merged before the sum, and the sum merges what they became.
theorem trace_faithful_of_squares :
    let x := Expr.symbol "x"
    let square := Expr.power x .two
    let t := Expr.sum [Expr.product [x, x], Expr.product [x, x]]
    let r := Expr.product [.two, square]
    let trace : Trace := ⟨some t,
      [⟨.product, x, x, square⟩, ⟨.product, x, x, square⟩, ⟨.sum, square, square, r⟩], some r⟩
    Answers {} (·.trace t) (r, trace) ∧ Faithful {} t r trace := by
  intro x square t r trace
  have ran : (within {} 6).trace t = .done (r, trace) := by cbv
  have traced : Answers {} (·.trace t) (r, trace) := .of_run (fun below => below.inStep.trace t) ran
  exact ⟨traced, ((trace_faithful {} t).2 r trace traced).1⟩

end Engine

end SymbolicArith
