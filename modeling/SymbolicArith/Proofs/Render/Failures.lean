import SymbolicArith.Proofs.Reduction.Complete
import SymbolicArith.Proofs.Reduction.Safety

open SymbolicArith.Expr SymbolicArith.Outcome

-- Where texts fail. Of each term of a sum but the first the sign is asked for, and a product
-- without factors has none; and a number may have more digits than the interpreter is set to write.
-- Of exact trees those with such a term or number have no text, and all others have one.
namespace SymbolicArith

namespace Lockstep.Engines

variable {m m' : Type → Type} {ι : Type} [Evaluator m] [Evaluator m'] {lock : Lockstep m ι m'}
  {engine : Engine m} {engines : ι → Engine m'} {digits : Option Nat}

theorem junction (together : lock.Engines engine engines) (factor following : Expr) :
    lock.rel (Infix.junction engine factor following)
      fun i => Infix.junction (engines i) factor following := by
  unfold Infix.junction
  refine lock.of_ite (lock.pure _) ?_
  split
  · exact lock.pure _
  · exact lock.bind (together.isEqual _ _) fun _ => lock.pure _

theorem laterTerms (terms : List Expr)
    (each : ∀ t ∈ terms,
      lock.rel (Infix.text digits engine t) fun i => Infix.text digits (engines i) t) :
    lock.rel (Infix.laterTerms digits engine terms)
      fun i => Infix.laterTerms digits (engines i) terms := by
  induction terms with
  | nil =>
    unfold Infix.laterTerms
    exact lock.pure ""
  | cons term rest ih =>
    unfold Infix.laterTerms
    refine lock.bind (lock.ofOutcome _) fun _ => lock.bind (each term (by simp)) fun _ => ?_
    exact lock.bind (ih fun other member => each other (by simp [member])) fun _ => lock.pure _

theorem factorsText (together : lock.Engines engine engines) (leading : Bool) (factors : List Expr)
    (each : ∀ f ∈ factors,
      lock.rel (Infix.text digits engine f) fun i => Infix.text digits (engines i) f) :
    lock.rel (Infix.factorsText digits engine leading factors)
      fun i => Infix.factorsText digits (engines i) leading factors := by
  induction factors generalizing leading with
  | nil =>
    unfold Infix.factorsText
    exact lock.pure ""
  | cons factor rest ih =>
    cases rest with
    | nil =>
      unfold Infix.factorsText
      exact lock.bind (each factor (by simp)) fun _ => lock.pure _
    | cons following rest =>
      unfold Infix.factorsText
      refine lock.bind (each factor (by simp)) fun _ => ?_
      refine lock.bind (together.junction factor following) fun junction => ?_
      have later := ih false fun other member => each other (List.mem_cons_of_mem factor member)
      cases junction with
      | times | adjacent | minus =>
        refine lock.bind (lock.pure _) fun _ => ?_
        exact (lock.bind later fun _ => lock.pure _ :)

theorem text (together : lock.Engines engine engines) (e : Expr) :
    lock.rel (Infix.text digits engine e) fun i => Infix.text digits (engines i) e := by
  induction e with
  | number =>
    unfold Infix.text
    exact lock.ofOutcome _
  | symbol =>
    unfold Infix.text
    exact lock.pure _
  | nary op es ih =>
    cases op with
    | product =>
      unfold Infix.text
      exact together.factorsText true es ih
    | sum =>
      cases es with
      | nil =>
        unfold Infix.text
        exact lock.pure ""
      | cons first rest =>
        unfold Infix.text
        refine lock.bind (ih first (by simp)) fun _ => ?_
        exact lock.bind (laterTerms rest fun t member => ih t (by simp [member])) fun _ =>
          lock.pure _
  | power base exponent ofBase ofExponent =>
    unfold Infix.text
    exact lock.bind ofBase fun _ => lock.bind ofExponent fun _ => lock.pure _

end Lockstep.Engines

namespace Outcome

-- A result where no failure has a reason, and otherwise one of the failures that have.
inductive FailsFor (reason : Failure → Prop) : Outcome α → Prop
  | done (a : α) (none : ∀ cause, ¬ reason cause) : FailsFor reason (.done a)
  | failed {cause : Failure} (some : reason cause) : FailsFor reason (.failed cause)

namespace FailsFor

variable {reason later : Failure → Prop} {outcome : Outcome α}

theorem of_finishes (finishes : outcome.Finishes) (none : ∀ cause, ¬ reason cause) :
    outcome.FailsFor reason := by
  obtain ⟨a, rfl⟩ := finishes
  exact .done a none

theorem bind {first : Outcome α} {next : α → Outcome β} (one : first.FailsFor reason)
    (two : ∀ a, (next a).FailsFor later) :
    (first >>= next).FailsFor fun cause => reason cause ∨ later cause := by
  cases one with
  | failed some => exact .failed (.inl some)
  | done a none =>
    have after := two a
    rw [done_bind]
    generalize next a = outcome at after
    cases after with
    | failed some => exact .failed (.inr some)
    | done b none' => exact .done b fun cause => not_or.mpr ⟨none cause, none' cause⟩

-- What is made of a result in the end changes nothing.
theorem map (fails : outcome.FailsFor reason) (next : α → β) :
    (outcome >>= fun a => Outcome.done (next a)).FailsFor reason := by
  cases fails with
  | done a none => exact .done _ none
  | failed some => exact .failed some

theorem congr (fails : outcome.FailsFor reason) (same : ∀ cause, reason cause ↔ later cause) :
    outcome.FailsFor later := by
  rwa [← funext fun cause => propext (same cause)]

theorem finishes (fails : outcome.FailsFor reason) (none : ∀ cause, ¬ reason cause) :
    outcome.Finishes := by
  cases fails with
  | done a => exact .done a
  | failed some => exact absurd some (none _)

theorem reason_of_failed {cause : Failure}
    (fails : (Outcome.failed cause : Outcome α).FailsFor reason) : reason cause := by
  cases fails with
  | failed some => exact some

theorem eq_failed (fails : outcome.FailsFor reason) (some : ∃ cause, reason cause) :
    ∃ cause, reason cause ∧ outcome = .failed cause := by
  cases fails with
  | done a none => exact absurd some (not_exists.mpr none)
  | failed reason => exact ⟨_, reason, rfl⟩

end FailsFor

end Outcome

namespace Expr

-- A sum in which every product behind the first term has a factor to be led by.
def LedNode : Expr → Prop
  | .sum (_ :: rest) => product [] ∉ rest
  | _ => True

instance : DecidablePred LedNode
  | .sum (_ :: rest) => inferInstanceAs (Decidable (product [] ∉ rest))
  | .sum [] | .number _ | .symbol _ | .product _ | .power _ _ => .isTrue trivial

abbrev Led : Expr → Prop := Everywhere LedNode

-- No operand of a flat tree is a product without factors.
theorem Flat.led {e : Expr} (flat : e.Flat) : e.Led := by
  induction e with
  | number | symbol => simp [LedNode]
  | power base exponent ofBase ofExponent =>
    obtain ⟨flatBase, flatExponent⟩ := flat_power.mp flat
    exact everywhere_power.mpr ⟨trivial, ofBase flatBase, ofExponent flatExponent⟩
  | nary op es ih =>
    obtain ⟨_, below⟩ := flat_nary.mp flat
    refine everywhere_nary.mpr ⟨?_, fun e member => ih e member (below e member)⟩
    have some : product [] ∉ es := fun member => by simpa [FlatNode] using below _ member
    cases op with
    | product => trivial
    | sum =>
      cases es with
      | nil => trivial
      | cons first rest => exact fun member => some (List.mem_cons_of_mem first member)

theorem isNegativeTerm_fails (e : Expr) :
    e.isNegativeTerm.FailsFor fun cause => cause = .missingOperand ∧ e = product [] := by
  unfold isNegativeTerm
  split
  · exact .done _ (by simp)
  · exact .failed ⟨rfl, rfl⟩
  · exact .done _ (by simp)
  · rename_i other _
    exact .done _ fun _ reason => other reason.2

variable {digits : Option Nat} {e : Expr} {es : List Expr} {op : Nary} {cause : Failure}

theorem allFit_iff : allFit digits es ↔ ∀ e ∈ es, e.fits digits := by
  induction es with
  | nil => simp [allFit]
  | cons e es ih => simp [allFit, ih]

@[simp] theorem fits_nary : (nary op es).fits digits ↔ ∀ e ∈ es, e.fits digits := by
  rw [fits, allFit_iff]

@[simp] theorem fits_power :
    (power base exponent).fits digits ↔ base.fits digits ∧ exponent.fits digits := by
  rw [fits, Bool.and_eq_true]

theorem not_fits_pow {n limit : ℕ} (many : limit ≤ n) : ¬ (ofInt (10 ^ n)).fits (some limit) := by
  have digits : 10 ^ limit ≤ 10 ^ n := Nat.pow_le_pow_right (by decide) many
  simpa [ofInt, fits, Literal.fits, Literal.digitsFit, Int.natAbs_pow] using digits

-- Where there is no limit every tree can be written.
theorem fits_none (e : Expr) : e.fits none := by
  induction e with
  | number value => cases value <;> simp [fits, Literal.fits, Literal.digitsFit]
  | symbol => rfl
  | nary op es ih => exact fits_nary.mpr ih
  | power base exponent ofBase ofExponent => exact fits_power.mpr ⟨ofBase, ofExponent⟩

-- Why a tree has no text: a term has no leading factor, or a number has too many digits.
def Unwritten (digits : Option Nat) (e : Expr) (cause : Failure) : Prop :=
  (cause = .missingOperand ∧ ¬ e.Led) ∨ (cause = .tooManyDigits ∧ ¬ e.fits digits)

theorem unwritten_power : (power base exponent).Unwritten digits cause ↔
    base.Unwritten digits cause ∨ exponent.Unwritten digits cause := by
  simp only [Unwritten, everywhere_power, fits_power, LedNode, true_and]
  tauto

theorem exists_unwritten : (∃ e ∈ es, e.Unwritten digits cause) ↔
    (cause = .missingOperand ∧ ¬ ∀ e ∈ es, e.Led) ∨
      (cause = .tooManyDigits ∧ ¬ ∀ e ∈ es, e.fits digits) := by
  simp only [Unwritten, and_or_left, exists_or, not_forall, exists_prop, and_left_comm,
    exists_and_left]

theorem unwritten_product : (product es).Unwritten digits cause ↔
    ∃ e ∈ es, e.Unwritten digits cause := by
  rw [exists_unwritten]
  simp only [Unwritten, everywhere_nary, fits_nary, LedNode, true_and]

theorem unwritten_sum_cons : (sum (e :: es)).Unwritten digits cause ↔
    e.Unwritten digits cause ∨ (cause = .missingOperand ∧ product [] ∈ es) ∨
      ∃ o ∈ es, o.Unwritten digits cause := by
  rw [exists_unwritten]
  simp only [Unwritten, Led, everywhere_nary, fits_nary, LedNode, List.forall_mem_cons]
  tauto

end Expr

-- A factor together with what joins it to the next one.
def Infix.Junction.joined (written : String) : Junction → String
  | .times => written ++ " * "
  | .adjacent => written
  | .minus => "-"

namespace Engine

variable {engine : Engine Outcome} {e : Expr} {es : List Expr} {digits : Option Nat}

theorem factorsText_cons {leading : Bool} {factor following : Expr} :
    Infix.factorsText digits engine leading (factor :: following :: es) = do
      let text ← Infix.text digits engine factor
      let junction ← Infix.junction engine factor following
      let later ← Infix.factorsText digits engine false (following :: es)
      return junction.joined (Infix.factorText leading factor text) ++ later := by
  rw [Infix.factorsText]
  refine bind_congr_done fun text _ => bind_congr_done fun junction _ => ?_
  cases junction with
  | times | adjacent | minus => rfl

theorem Complete.junction (complete : Complete engine) {factor following : Expr}
    (left : factor.Exact) (right : following.Exact) :
    (Infix.junction engine factor following).Finishes := by
  unfold Infix.junction
  split
  · exact .done _
  · split
    · exact .done _
    · exact (complete.compares left right).bind fun _ _ => .done _

theorem laterTerms_fails
    (each : ∀ e ∈ es, (Infix.text digits engine e).FailsFor (e.Unwritten digits)) :
    (Infix.laterTerms digits engine es).FailsFor fun cause =>
      (cause = .missingOperand ∧ product [] ∈ es) ∨ ∃ e ∈ es, e.Unwritten digits cause := by
  induction es with
  | nil =>
    unfold Infix.laterTerms
    exact .done "" (by simp)
  | cons term rest ih =>
    unfold Infix.laterTerms
    have later := ih fun other member => each other (by simp [member])
    have run := (term.isNegativeTerm_fails).bind fun negative => (each term (by simp)).bind
      fun termText => later.map fun others =>
        (if negative then " - " ++ Infix.withoutMinus termText else " + " ++ termText) ++ others
    refine run.congr fun cause => ?_
    simp only [List.mem_cons, exists_eq_or_imp, @eq_comm _ term]
    tauto

theorem Complete.factorsText_fails (complete : Complete engine) {leading : Bool}
    (exact : ∀ e ∈ es, e.Exact)
    (each : ∀ e ∈ es, (Infix.text digits engine e).FailsFor (e.Unwritten digits)) :
    (Infix.factorsText digits engine leading es).FailsFor fun cause =>
      ∃ e ∈ es, e.Unwritten digits cause := by
  induction es generalizing leading with
  | nil =>
    unfold Infix.factorsText
    exact .done "" (by simp)
  | cons factor rest ih =>
    cases rest with
    | nil =>
      unfold Infix.factorsText
      refine ((each factor (by simp)).map _).congr ?_
      simp
    | cons following rest =>
      have joins := complete.junction (exact factor (by simp)) (exact following (by simp))
      have later : (Infix.factorsText digits engine false (following :: rest)).FailsFor _ :=
        ih (fun e member => exact e (List.mem_cons_of_mem factor member))
          fun e member => each e (List.mem_cons_of_mem factor member)
      rw [factorsText_cons]
      refine ((each factor (by simp)).bind fun _ => FailsFor.bind
        (.of_finishes joins fun _ => not_false) fun _ => later.map _).congr fun cause => ?_
      simp [exists_eq_or_imp]

theorem Complete.text_fails (complete : Complete engine) (exact : e.Exact) :
    (Infix.text digits engine e).FailsFor (e.Unwritten digits) := by
  induction e with
  | number value =>
    unfold Infix.text Infix.numberText
    split
    · rename_i fits
      exact .done _ (by simp [Unwritten, LedNode, Expr.fits, fits])
    · rename_i long
      exact .failed (.inr ⟨rfl, long⟩)
  | symbol =>
    unfold Infix.text
    exact .done _ (by simp [Unwritten, LedNode, fits])
  | nary op es ih =>
    have below := exact_nary.mp exact
    have each : ∀ e ∈ es, (Infix.text digits engine e).FailsFor (e.Unwritten digits) :=
      fun e member => ih e member (below e member)
    cases op with
    | product =>
      unfold Infix.text
      exact (complete.factorsText_fails below each).congr fun _ => unwritten_product.symm
    | sum =>
      cases es with
      | nil =>
        unfold Infix.text
        exact .done "" (by simp [Unwritten, LedNode])
      | cons first rest =>
        unfold Infix.text
        have later := laterTerms_fails fun e member => each e (List.mem_cons_of_mem first member)
        exact ((each first (by simp)).bind fun _ => later.map _).congr fun _ =>
          unwritten_sum_cons.symm
  | power base exponent ofBase ofExponent =>
    obtain ⟨exactBase, exactExponent⟩ := exact_power.mp exact
    unfold Infix.text
    exact ((ofBase exactBase).bind fun _ => (ofExponent exactExponent).map _).congr fun _ =>
      unwritten_power.symm

-- A computation fails for this reason from some depth on.
def Fails (config : Config) (run : Engine Outcome → Outcome α) (cause : Failure) : Prop :=
  ∃ bound, ∀ depth, bound ≤ depth → run (within config depth) = .failed cause

variable {config : Config} {x y : Expr} {s : String} {cause : Failure}

theorem answers_text : Answers config (Infix.text digits · e) s ↔
    Infix.text digits (unbounded config) e = .done s :=
  answers_iff ((unbounded_inStep config).text e)

theorem answers_text_of_led (exact : e.Exact) (led : e.Led) (fits : e.fits digits) :
    ∃ s, Answers {} (Infix.text digits · e) s := by
  have complete : (unbounded {}).Complete := unbounded_complete (by decide)
  obtain ⟨s, text⟩ := (complete.text_fails exact).finishes fun cause reason =>
    reason.elim (fun unled => unled.2 led) fun long => long.2 fits
  exact ⟨s, answers_text.mpr text⟩

theorem fails_iff {run : Engine Outcome → Outcome α}
    (converges : converging.rel (run (unbounded config)) fun depth => run (within config depth)) :
    Fails config run cause ↔ run (unbounded config) = .failed cause := by
  constructor
  · exact fun fails => converging_unique converges fails
  · intro failed
    rw [failed] at converges
    exact converges

theorem fails_text : Fails config (Infix.text digits · e) cause ↔
    Infix.text digits (unbounded config) e = .failed cause :=
  fails_iff ((unbounded_inStep config).text e)

theorem unwritten_of_fails_text (exact : e.Exact)
    (fails : Fails {} (Infix.text digits · e) cause) : e.Unwritten digits cause := by
  have complete : (unbounded {}).Complete := unbounded_complete (by decide)
  have told : (Infix.text digits (unbounded {}) e).FailsFor (e.Unwritten digits) :=
    complete.text_fails exact
  rw [fails_text.mp fails] at told
  exact told.reason_of_failed

theorem fails_text_of_unwritten (exact : e.Exact) (some : ∃ cause, e.Unwritten digits cause) :
    ∃ cause, e.Unwritten digits cause ∧ Fails {} (Infix.text digits · e) cause := by
  have complete : (unbounded {}).Complete := unbounded_complete (by decide)
  obtain ⟨cause, reason, failed⟩ := (complete.text_fails exact).eq_failed some
  exact ⟨cause, reason, fails_text.mpr failed⟩

-- Whatever is asked of the two trees, at whatever depth, does not fail, and a power of numbers is
-- worked out only where it is defined. Only the text can fail, for which factors are compared under
-- the default weights: without a limit on digits exactly where a term has no leading factor, and
-- under a limit also where a number has too many digits.
structure NeverFails (config : Config) (x y : Expr) : Prop where
  reduce : ∀ depth, ((within config depth).reduce x).Unfailing
  trace : ∀ depth, ((within config depth).trace x).Unfailing
  combine : ∀ depth (op : Operator),
    ((within config depth).combineValues op.kind (.tree x) (.tree y)).Unfailing
  isEqual : ∀ depth, ((within config depth).isEqual x y).Unfailing
  expand : ∀ depth, (x.expandWithin config depth).Unfailing
  powers : ∀ {a b value : Literal} {p q : ℚ}, a.rational? = some p → b.rational? = some q →
    Literal.foldPower? config.maxFoldExponent a b = some value →
      ∃ n : ℤ, q = n ∧ (p = 0 → 0 ≤ n) ∧ value = .exact (p ^ n)
  unlimited : ∀ {cause}, Fails {} (Infix.text none · x) cause ↔
    cause = .missingOperand ∧ ¬ x.Led
  led : ∀ {digits}, x.fits digits → x.Led → ∃ s, Answers {} (Infix.text digits · x) s
  unled : ∀ {digits}, x.fits digits → ¬ x.Led → Fails {} (Infix.text digits · x) .missingOperand
  tooLong : ∀ {digits}, ¬ x.fits digits → x.Led → Fails {} (Infix.text digits · x) .tooManyDigits
  either : ∀ {digits}, ¬ x.fits digits → ¬ x.Led →
    Fails {} (Infix.text digits · x) .missingOperand ∨
      Fails {} (Infix.text digits · x) .tooManyDigits

end Engine

end SymbolicArith
