import SymbolicArith.Proofs.Reduction.Limit

open SymbolicArith.Outcome

-- Soundness of memos. A memo is sound if each of its entries is a reduction that would be computed
-- without it. Every computation from a sound memo goes through sound memos only, and its outcome is
-- held between the outcome without a memo at the same depth and the one without a limit.
namespace SymbolicArith

namespace Memo

def Sound (memo : Memo) : Prop :=
  ∀ config e r, memo.entries[(config, e)]? = some r → Engine.Answers config (·.reduce e) r

theorem sound_empty (keeps : Nat → Config × Expr → Bool) : (empty keeps).Sound := by
  intro config e r found
  simp [empty] at found

theorem sound_clear (memo : Memo) : memo.clear.Sound := by
  intro config e r found
  simp [clear] at found

theorem Sound.find {memo : Memo} (sound : memo.Sound) (found : memo.find? (config, e) = some r) :
    Engine.Answers config (·.reduce e) r := by
  unfold find? at found
  split at found
  · exact sound config e r found
  · cases found

theorem Sound.insert {memo : Memo} (sound : memo.Sound)
    (answers : Engine.Answers config (·.reduce e) r) : (memo.insert (config, e) r).Sound := by
  intro config' e' r' found
  simp only [Memo.insert, Std.HashMap.getElem?_insert, beq_iff_eq] at found
  split at found
  · rename_i same
    cases same
    cases found
    exact answers
  · exact sound config' e' r' found

end Memo

namespace Memoised

variable {memo : Memo} {compute : Memoised Expr}

theorem remembering_found (found : memo.find? (config, e) = some r) :
    Memoised.remembering config e compute memo =
      .done (r, { memo with lookups := memo.lookups + 1 }) := by
  have looked : lookup (config, e) memo =
      .done (some r, { memo with lookups := memo.lookups + 1 }) := by rw [lookup, found]
  simp only [Memoised.remembering, bind, StateT.bind, looked, Outcome.bind]
  rfl

theorem remembering_missed (missed : memo.find? (config, e) = none) :
    Memoised.remembering config e compute memo =
      compute { memo with lookups := memo.lookups + 1 } >>= fun (r, memo) =>
        .done (r, memo.insert (config, e) r) := by
  have looked : lookup (config, e) memo =
      .done (none, { memo with lookups := memo.lookups + 1 }) := by rw [lookup, missed]
  simp only [Memoised.remembering, bind, StateT.bind, looked, Outcome.bind]
  rfl

end Memoised

-- A memo with all the memos before it.
structure Watch where
  memo : Memo
  past : List Memo

namespace Watch

def start (memo : Memo) : Watch := ⟨memo, []⟩
def move (watch : Watch) (memo : Memo) : Watch := ⟨memo, watch.memo :: watch.past⟩

def looked (watch : Watch) : Watch :=
  watch.move { watch.memo with lookups := watch.memo.lookups + 1 }

def memos (watch : Watch) : List Memo := watch.memo :: watch.past

def Sound (watch : Watch) : Prop := ∀ memo ∈ watch.memos, memo.Sound

theorem sound_start {memo : Memo} (sound : memo.Sound) : (start memo).Sound := by
  intro first member
  rwa [List.mem_singleton.mp member]

theorem Sound.move {watch : Watch} {memo : Memo} (sound : watch.Sound) (next : memo.Sound) :
    (watch.move memo).Sound := by
  intro past member
  rcases List.mem_cons.mp member with rfl | before
  · exact next
  · exact sound past before

theorem Sound.memo {watch : Watch} (sound : watch.Sound) : watch.memo.Sound :=
  sound watch.memo (.head _)

theorem Sound.looked {watch : Watch} (sound : watch.Sound) : watch.looked.Sound :=
  sound.move sound.memo

end Watch

-- Memoised computations under watch: every memo on the way is noted, and the last of them is there
-- also where a computation fails or is cut short.
def Watched (α : Type) : Type := Watch → Outcome α × Watch

namespace Watched

-- What follows a computation, if that has a result.
def resume (next : α → Watched β) : Outcome α × Watch → Outcome β × Watch
  | (.done a, watch) => next a watch
  | (.failed cause, watch) => (.failed cause, watch)
  | (.unfinished, watch) => (.unfinished, watch)

instance : Monad Watched where
  pure a := fun watch => (.done a, watch)
  bind first next := fun watch => resume next (first watch)

theorem bind_apply (first : Watched α) (next : α → Watched β) (watch : Watch) :
    (first >>= next) watch = resume next (first watch) := rfl

theorem resume_pure (reached : Outcome α × Watch) : resume pure reached = reached := by
  obtain ⟨outcome, watch⟩ := reached
  cases outcome <;> rfl

theorem resume_resume (next : α → Watched β) (last : β → Watched γ) (reached : Outcome α × Watch) :
    resume last (resume next reached) = resume (fun a => next a >>= last) reached := by
  obtain ⟨outcome, watch⟩ := reached
  cases outcome <;> rfl

theorem resume_fst (next : α → Watched β) (reached : Outcome α × Watch) :
    (resume next reached).1 = reached.1 >>= fun a => (next a reached.2).1 := by
  obtain ⟨outcome, watch⟩ := reached
  cases outcome <;> rfl

instance : LawfulMonad Watched :=
  LawfulMonad.mk' Watched
    (fun first => funext fun watch => resume_pure (first watch))
    (fun _ _ => rfl)
    (fun first next last => funext fun watch => resume_resume next last (first watch))

-- The result of a computation is entered into the memo.
def enter (config : Config) (e : Expr) : Outcome Expr × Watch → Outcome Expr × Watch
  | (.done reduced, watch) => (.done reduced, watch.move (watch.memo.insert (config, e) reduced))
  | stopped => stopped

def remembering (config : Config) (e : Expr) (compute : Watched Expr) : Watched Expr :=
  fun watch =>
    match watch.memo.find? (config, e) with
    | some reduced => (.done reduced, watch.looked)
    | none => enter config e (compute watch.looked)

instance : Evaluator Watched where
  ofOutcome outcome := fun watch => (outcome, watch)
  remembering := remembering

end Watched

-- A watched computation and the memoised one that it watches.
def watching : Lockstep Watched Unit Memoised where
  rel watched run := ∀ watch : Watch, run () watch.memo =
    (watched watch).1 >>= fun a => .done (a, (watched watch).2.memo)
  pure _ _ := rfl
  ofOutcome _ _ := rfl
  bind {_ _ first firsts next nexts} ran ran' watch := by
    show (firsts () watch.memo >>= fun (a, memo) => nexts () a memo) = _
    rw [ran watch, Watched.bind_apply]
    rcases first watch with ⟨_ | _ | _, after⟩
    · exact ran' _ after
    · rfl
    · rfl

theorem watching_remembering (config : Config) (e : Expr) {compute : Watched Expr}
    {computes : Unit → Memoised Expr} (ran : watching.rel compute computes) :
    watching.rel (remembering config e compute) fun i => remembering config e (computes i) := by
  intro watch
  show Memoised.remembering config e (computes ()) watch.memo =
    (Watched.remembering config e compute watch).1 >>= fun a =>
      .done (a, (Watched.remembering config e compute watch).2.memo)
  unfold Watched.remembering
  cases found : watch.memo.find? (config, e) with
  | some reduced => rw [Memoised.remembering_found found]; rfl
  | none =>
    rw [Memoised.remembering_missed found]
    show (computes () watch.looked.memo >>= _) = _
    rw [ran watch.looked]
    rcases compute watch.looked with ⟨_ | _ | _, after⟩ <;> rfl

namespace Engine

-- The engines that a memoised one of this depth is held between.
inductive Reference where
  | within
  | unbounded

noncomputable def Reference.engine (config : Config) (depth : Nat) : Reference → Engine Outcome
  | .within => Engine.within config depth
  | .unbounded => Engine.unbounded config

def recalling : Lockstep Watched Reference Outcome where
  rel run references := ∀ watch : Watch, watch.Sound →
    (references .within).ExtendedBy (run watch).1 ∧
      (run watch).1.ExtendedBy (references .unbounded) ∧ (run watch).2.Sound
  pure _ _ sound := ⟨.refl _, .refl _, sound⟩
  ofOutcome _ _ sound := ⟨.refl _, .refl _, sound⟩
  bind {_ _ first firsts next nexts} held rest watch sound := by
    obtain ⟨lower, upper, kept⟩ := held watch sound
    rw [Watched.bind_apply, Watched.resume_fst]
    refine ⟨lower.bind fun a => (rest a _ kept).1, upper.bind fun a => (rest a _ kept).2.1, ?_⟩
    rcases ran : first watch with ⟨a | _ | _, after⟩ <;> rw [ran] at kept
    · exact (rest a after kept).2.2
    · exact kept
    · exact kept

theorem Reference.reduce_succ (config : Config) (depth : Nat) (e : Expr) (reference : Reference) :
    (reference.engine config (depth + 1)).reduce e =
      (reference.engine config depth).reduceStep e := by
  cases reference with
  | within => rfl
  | unbounded => exact unbounded_reduce config e

theorem Reference.settle_succ (config : Config) (depth : Nat) (e : Expr) (reference : Reference) :
    (reference.engine config (depth + 1)).settle e =
      (reference.engine config depth).settleStep e := by
  cases reference with
  | within => rfl
  | unbounded => exact unbounded_settle config e

theorem Reference.isEqual_succ (config : Config) (depth : Nat) (x y : Expr)
    (reference : Reference) : (reference.engine config (depth + 1)).isEqual x y =
      (reference.engine config depth).isEqualStep x y := by
  cases reference with
  | within => rfl
  | unbounded => exact unbounded_isEqual config x y

theorem unbounded_reduceAnew (config : Config) (e : Expr) :
    (unbounded config).reduceAnew e = (unbounded config).reduce e := by
  rw [unbounded_reduce, reduceStep_eq]
  cases e <;> rfl

section

variable {config : Config} {depth : Nat} {e : Expr} {compute : Watched Expr}

-- What a sound memo recalls is what would be computed, and what is computed may be entered.
theorem recalling_remembering (held : recalling.rel compute fun reference =>
      (reference.engine config depth).reduceAnew e) :
    recalling.rel (remembering config e compute) fun reference =>
      remembering config e ((reference.engine config depth).reduceAnew e) := by
  intro watch sound
  show ExtendedBy _ (Watched.remembering config e compute watch).1 ∧
    ExtendedBy (Watched.remembering config e compute watch).1 _ ∧
      (Watched.remembering config e compute watch).2.Sound
  unfold Watched.remembering
  cases found : watch.memo.find? (config, e) with
  | some reduced =>
    have answer := (unbounded_reduceAnew config e).trans
      (answers_reduce.mp (sound.memo.find found))
    have below : ExtendedBy _ _ := (within_below_unbounded config depth).inStep.reduceAnew e
    rw [answer] at below
    exact ⟨below, .inr answer.symm, sound.looked⟩
  | none =>
    obtain ⟨lower, upper, kept⟩ := held watch.looked sound.looked
    rcases ran : compute watch.looked with ⟨outcome, after⟩
    rw [ran] at lower upper kept
    cases outcome with
    | done reduced =>
      have answer := (unbounded_reduceAnew config e).symm.trans (upper.eq_done rfl)
      exact ⟨lower, upper, kept.move (kept.memo.insert (answers_reduce.mpr answer))⟩
    | failed | unfinished => exact ⟨lower, upper, kept⟩

end

-- Memoised engines of all depths are held between the engines without a memo.
theorem ofDepth_recalling (config : Config) (depth : Nat) :
    recalling.Engines (ofDepth config depth) (Reference.engine config depth) := by
  have sameConfig : ∀ depth reference,
      (Reference.engine config depth reference).config =
        (ofDepth config depth : Engine Watched).config := by
    intro depth reference
    rw [ofDepth_config]
    cases reference with
    | within => exact within_config config depth
    | unbounded => rfl
  induction depth with
  | zero =>
    refine ⟨sameConfig 0, fun _ => ?_, fun _ => ?_, fun _ _ => ?_⟩
    all_goals exact fun _ sound => ⟨.unfinished _, .unfinished _, sound⟩
  | succ depth ih =>
    refine ⟨sameConfig (depth + 1), ?_, ?_, ?_⟩
    · intro e
      simp only [Reference.reduce_succ]
      apply ih.reduceStep e
      rw [ofDepth_config]
      exact recalling_remembering (ih.reduceAnew e)
    · intro e
      simp only [Reference.settle_succ]
      exact ih.settleStep e
    · intro x y
      simp only [Reference.isEqual_succ]
      exact ih.isEqualStep x y

theorem ofDepth_watching (config : Config) (depth : Nat) :
    watching.Engines (ofDepth config depth) fun _ => ofDepth config depth := by
  have sameConfig : ∀ depth (_ : Unit), (ofDepth config depth : Engine Memoised).config =
      (ofDepth config depth : Engine Watched).config := by
    intro depth _
    rw [ofDepth_config, ofDepth_config]
  induction depth with
  | zero =>
    refine ⟨sameConfig 0, fun _ => ?_, fun _ => ?_, fun _ _ => ?_⟩
    all_goals exact fun _ => rfl
  | succ depth ih =>
    refine ⟨sameConfig (depth + 1), ?_, ih.settleStep, ih.isEqualStep⟩
    intro e
    exact ih.reduceStep e (watching_remembering _ e (ih.reduceAnew e))

-- What is computed at some depth without a memo is computed there with any sound memo as well.
theorem memoised_eq_done {memo : Memo} (sound : memo.Sound) {watched : Watched α}
    {run : Memoised α} {references : Reference → Outcome α}
    (held : recalling.rel watched references) (follows : watching.rel watched fun _ => run)
    (ran : references .within = .done a) : ∃ after, run memo = .done (a, after) := by
  have lower := (held (.start memo) (Watch.sound_start sound)).1
  have same := lower.eq_done ran
  refine ⟨(watched (.start memo)).2.memo, (follows (.start memo)).trans ?_⟩
  rw [same, done_bind]

end Engine

end SymbolicArith
