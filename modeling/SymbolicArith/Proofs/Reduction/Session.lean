import SymbolicArith.Proofs.Expr.Shape
import SymbolicArith.Proofs.Reduction.Memo

open SymbolicArith.Expr SymbolicArith.Outcome

-- Sessions: calls under any mix of configurations that share one memo, which may lose entries and
-- be emptied in between. No reply shows that there is a memo.
namespace SymbolicArith

inductive Question where
  | reduce (value : Value)
  | trace (value : Value)
  | combine (kind : Kind) (x y : Value)
  | isEqual (x y : Value)
  | findCommon (x y : Expr)
  | factorOutSum (x y : Expr)
  | factorOutPower (x y : Expr)
  | expand (value : Value)

inductive Reply where
  | tree (e : Expr)
  | traced (result : Expr × Trace)
  | truth (equal : Bool)
  | common (found : Split)
  | factored (result : Option Expr)
  | cleared

def Question.ask {m : Type → Type} [Evaluator m] (engine : Engine m) : Question → m Reply
  | .reduce value => return .tree (← engine.reduceValue value)
  | .trace value => return .traced (← engine.traceValue value)
  | .combine kind x y => return .tree (← engine.combineValues kind x y)
  | .isEqual x y => return .truth (← engine.isEqualValues x y)
  | .findCommon x y => return .common (← engine.findCommon x y)
  | .factorOutSum x y => return .factored (← engine.factorOutSum x y)
  | .factorOutPower x y => return .factored (← engine.factorOutPower x y)
  | .expand value => return .tree (← engine.expandValue value)

theorem Lockstep.Engines.ask {m m' : Type → Type} {ι : Type} [Evaluator m] [Evaluator m']
    {lock : Lockstep m ι m'} {engine : Engine m} {engines : ι → Engine m'}
    (together : lock.Engines engine engines) (question : Question) :
    lock.rel (question.ask engine) fun i => question.ask (engines i) := by
  cases question with
  | reduce value => exact lock.bind (together.reduceValue value) fun _ => lock.pure _
  | trace value => exact lock.bind (together.traceValue value) fun _ => lock.pure _
  | combine kind x y => exact lock.bind (together.combineValues kind x y) fun _ => lock.pure _
  | isEqual x y => exact lock.bind (together.isEqualValues x y) fun _ => lock.pure _
  | findCommon x y => exact lock.bind (together.findCommon x y) fun _ => lock.pure _
  | factorOutSum x y => exact lock.bind (together.factorOutSum x y) fun _ => lock.pure _
  | factorOutPower x y => exact lock.bind (together.factorOutPower x y) fun _ => lock.pure _
  | expand value => exact lock.bind (together.expandValue value) fun _ => lock.pure _

inductive Call where
  | ask (config : Config) (question : Question)
  | clear

namespace Call

def run (depth : Nat) : Call → Memoised Reply
  | ask config question => question.ask (Engine.ofDepth config depth)
  | clear => do
    Memoised.clear
    return .cleared

def watched (depth : Nat) : Call → Watched Reply
  | ask config question => question.ask (Engine.ofDepth config depth)
  | clear => fun watch => (.done .cleared, watch.move watch.memo.clear)

-- Without a memo the call returns, and this is how.
def Returns : Call → Outcome Reply → Prop
  | ask config question, outcome => outcome ≠ .unfinished ∧
    ∃ bound, ∀ depth, bound ≤ depth → question.ask (Engine.within config depth) = outcome
  | clear, outcome => outcome = .done .cleared

theorem Returns.of_ask {question : Question} {outcome : Outcome Reply} (depth : Nat)
    (asked : question.ask (Engine.within config depth) = outcome)
    (returned : outcome ≠ .unfinished) : (ask config question).Returns outcome := by
  refine ⟨returned, depth, fun deeper le => ?_⟩
  have below : Engine.Below (Engine.within config depth) (Engine.within config deeper) :=
    Engine.within_below le
  have extended := below.inStep.ask question
  exact ((extended.resolve_left (asked ▸ returned)).symm.trans asked)

theorem watched_run (depth : Nat) (call : Call) :
    watching.rel (call.watched depth) fun _ => call.run depth := by
  cases call with
  | ask config question => exact (Engine.ofDepth_watching config depth).ask question
  | clear => exact fun _ => rfl

theorem watched_sound {watch : Watch} (depth : Nat) (call : Call) (sound : watch.Sound) :
    (call.watched depth watch).2.Sound := by
  cases call with
  | ask config question =>
    exact ((Engine.ofDepth_recalling config depth).ask question watch sound).2.2
  | clear => exact sound.move watch.memo.sound_clear

theorem Returns.unbounded {question : Question} {outcome : Outcome Reply}
    (returns : (ask config question).Returns outcome) :
    question.ask (Engine.unbounded config) = outcome :=
  Engine.converging_unique ((Engine.unbounded_inStep config).ask question) returns.2

theorem watched_extended {call : Call} {outcome : Outcome Reply} {watch : Watch} (depth : Nat)
    (returns : call.Returns outcome) (sound : watch.Sound) :
    (call.watched depth watch).1.ExtendedBy outcome := by
  cases call with
  | ask config question =>
    have held := (Engine.ofDepth_recalling config depth).ask question watch sound
    rw [← returns.unbounded]
    exact held.2.1
  | clear => exact .inr returns.symm

-- Deep enough it is not cut short, whatever the memo holds.
theorem watched_eq {call : Call} {outcome : Outcome Reply} (returns : call.Returns outcome) :
    ∃ bound, ∀ depth, bound ≤ depth → ∀ watch : Watch, watch.Sound →
      (call.watched depth watch).1 = outcome := by
  cases call with
  | ask config question =>
    obtain ⟨returned, bound, asked⟩ := returns
    refine ⟨bound, fun depth le watch sound => ?_⟩
    have held := (Engine.ofDepth_recalling config depth).ask question watch sound
    have lower : (question.ask (Engine.within config depth)).ExtendedBy _ := held.1
    rw [asked depth le] at lower
    exact (lower.resolve_left returned).symm
  | clear => exact ⟨0, fun _ _ _ _ => returns.symm⟩

end Call

-- The replies to calls made one after another, and the memos on the way.
def session (depth : Nat) : List Call → Watch → List (Outcome Reply) × Watch
  | [], watch => ([], watch)
  | call :: calls, watch =>
    let (outcome, watch) := call.watched depth watch
    let (outcomes, watch) := session depth calls watch
    (outcome :: outcomes, watch)

section

variable {calls : List Call} {outcomes : List (Outcome Reply)} {watch : Watch}

theorem session_sound (depth : Nat) (sound : watch.Sound) :
    (session depth calls watch).2.Sound := by
  induction calls generalizing watch with
  | nil => exact sound
  | cons call calls ih => exact ih (call.watched_sound depth sound)

theorem session_extended (depth : Nat) (returns : List.Forall₂ Call.Returns calls outcomes)
    (sound : watch.Sound) :
    List.Forall₂ ExtendedBy (session depth calls watch).1 outcomes := by
  induction returns generalizing watch with
  | nil => exact .nil
  | @cons call outcome _ _ first _ ih =>
    exact .cons (call.watched_extended depth first sound) (ih (call.watched_sound depth sound))

theorem session_eq (returns : List.Forall₂ Call.Returns calls outcomes) :
    ∃ bound, ∀ depth, bound ≤ depth → ∀ watch : Watch, watch.Sound →
      (session depth calls watch).1 = outcomes := by
  induction returns with
  | nil => exact ⟨0, fun _ _ _ _ => rfl⟩
  | @cons call outcome _ _ first _ ih =>
    obtain ⟨bound, ran⟩ := Call.watched_eq first
    obtain ⟨bound', ran'⟩ := ih
    refine ⟨max bound bound', fun depth le watch sound => ?_⟩
    have one := ran depth (by omega) watch sound
    have others := ran' depth (by omega) _ (call.watched_sound depth sound)
    simp only [session, one, others]

end

-- Each entry is the reduction of every tree that counts as its key.
def Memo.Faithful (memo : Memo) : Prop :=
  ∀ config (key e r : Expr), memo.entries[(config, key)]? = some r → e.Exact → key.same e →
    Engine.Answers config (·.reduce e) r

theorem Memo.Sound.faithful {memo : Memo} (sound : memo.Sound) : memo.Faithful := by
  intro config key e r found exact same
  obtain rfl := exact.same_iff.mp same
  exact sound config key r found

-- A memo never shows. From an empty one, whichever entries it loses and whenever it is emptied,
-- the replies are those without a memo; at too small a depth they are cut short but never others;
-- and the memo is faithful at every moment. Each call runs as a memoised one does.
theorem memo_invisible {keeps : Nat → Config × Expr → Bool} {calls : List Call}
    {outcomes : List (Outcome Reply)} (returns : List.Forall₂ Call.Returns calls outcomes) :
    (∃ bound, ∀ depth, bound ≤ depth →
      (session depth calls (.start (.empty keeps))).1 = outcomes) ∧
    (∀ depth, List.Forall₂ ExtendedBy (session depth calls (.start (.empty keeps))).1 outcomes) ∧
    (∀ depth, ∀ memo ∈ (session depth calls (.start (.empty keeps))).2.memos, memo.Faithful) ∧
    ∀ depth (call : Call) (watch : Watch), call.run depth watch.memo =
      (call.watched depth watch).1 >>= fun reply =>
        .done (reply, (call.watched depth watch).2.memo) := by
  have start : (Watch.start (.empty keeps)).Sound := Watch.sound_start (Memo.sound_empty keeps)
  refine ⟨?_, fun depth => session_extended depth returns start, ?_, Call.watched_run⟩
  · obtain ⟨bound, ran⟩ := session_eq returns
    exact ⟨bound, fun depth le => ran depth le _ start⟩
  · intro depth memo member
    exact (session_sound depth start memo member).faithful

-- One tree is reduced under two configurations, and traced; then a call fails, the memo is emptied,
-- and the last call is answered by a memo that loses all its entries at every other lookup.
theorem memo_invisible_of_mixed :
    let x := symbol "x"
    let double := sum [x, x]
    let twice := product [two, x]
    let calls : List Call := [
      .ask {} (.reduce (.tree double)),
      .ask { symbolWeight := 1 } (.reduce (.tree double)),
      .ask {} (.trace (.tree double)),
      .ask {} (.findCommon x x),
      .clear,
      .ask {} (.isEqual (.tree double) (.tree (product [x, two])))]
    let outcomes : List (Outcome Reply) := [
      .done (.tree twice),
      .done (.tree double),
      .done (.traced (twice, ⟨some double, [⟨.sum, x, x, twice⟩], some twice⟩)),
      .failed (.misuse .terminalOperand),
      .done .cleared,
      .done (.truth true)]
    List.Forall₂ Call.Returns calls outcomes ∧ ∃ bound, ∀ depth, bound ≤ depth →
      (session depth calls (.start (.empty fun lookup _ => lookup % 2 = 0))).1 = outcomes := by
  intro x double twice calls outcomes
  have returns : List.Forall₂ Call.Returns calls outcomes := by
    refine .cons ?_ (.cons ?_ (.cons ?_ (.cons ?_ (.cons rfl (.cons ?_ .nil)))))
    all_goals exact .of_ask 6 (by cbv) (by simp)
  exact ⟨returns, (memo_invisible returns).1⟩

end SymbolicArith
