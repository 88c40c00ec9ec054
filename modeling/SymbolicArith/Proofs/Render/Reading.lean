import Mathlib.Algebra.Ring.Int.Parity
import SymbolicArith.Proofs.Expr.Value
import SymbolicArith.Proofs.Render.Legible

open SymbolicArith.Expr SymbolicArith.Token

-- The value of a text, read from its tokens alone: from left to right, with a frame for the text so
-- far and one for every group that is still open. A minus sign is a factor -1 of all that follows
-- in its product, and so before a power the sign of the power and not of its base.
namespace SymbolicArith

-- The terms that are finished, the factors of this term before the last one, and the last one.
-- After a caret the base waits for its exponent, with the sign of the exponent.
structure Frame where
  total : ℚ
  product : ℚ
  factor : ℚ
  raised : Option (ℚ × ℚ)

namespace Frame

def fresh : Frame := ⟨0, 1, 1, none⟩

def result (frame : Frame) : ℚ := frame.total + frame.product * frame.factor

def operand (v : ℚ) (frame : Frame) : Frame :=
  match frame.raised with
  | none => ⟨frame.total, frame.product * frame.factor, v, none⟩
  | some (base, signed) => ⟨frame.total, frame.product, integerPower base (signed * v), none⟩

def negate (frame : Frame) : Frame :=
  match frame.raised with
  | none => ⟨frame.total, frame.product * frame.factor * -1, 1, none⟩
  | some (base, signed) => ⟨frame.total, frame.product, frame.factor, some (base, -signed)⟩

def raise (frame : Frame) : Frame := ⟨frame.total, frame.product, 1, some (frame.factor, 1)⟩

def next (frame : Frame) : Frame := ⟨frame.result, 1, 1, none⟩

end Frame

namespace Token

def onInnermost (change : Frame → Frame) : List Frame → List Frame
  | [] => []
  | frame :: rest => change frame :: rest

def close : List Frame → List Frame
  | inner :: rest => onInnermost (.operand inner.result) rest
  | [] => []

def read (rho : String → ℚ) (frames : List Frame) : Token → List Frame
  | number q => onInnermost (.operand q) frames
  | letter c => onInnermost (.operand (rho (String.ofList [c]))) frames
  | opening => .fresh :: frames
  | closing => close frames
  | caret => onInnermost .raise frames
  | times => frames
  | plus => onInnermost .next frames
  | minus => onInnermost (·.next.negate) frames
  | sign => onInnermost .negate frames

def readAll (rho : String → ℚ) (ts : List Token) (frames : List Frame) : List Frame :=
  ts.foldl (read rho) frames

section

variable {rho : String → ℚ} {ts us : List Token} {v w : ℚ}

-- The tokens stand for this value wherever an operand may stand.
def ReadsOperand (rho : String → ℚ) (ts : List Token) (v : ℚ) : Prop :=
  ∀ frame rest, readAll rho ts (frame :: rest) = frame.operand v :: rest

-- As an exponent they stand for this value.
def ReadsExponent (rho : String → ℚ) (ts : List Token) (v : ℚ) : Prop :=
  ∀ (frame : Frame) rest, frame.raised.isSome →
    readAll rho ts (frame :: rest) = frame.operand v :: rest

-- They multiply the term that is being read.
def Multiplies (rho : String → ℚ) (ts : List Token) (v : ℚ) : Prop :=
  ∀ (frame : Frame) rest, frame.raised = none → ∃ product factor,
    readAll rho ts (frame :: rest) = ⟨frame.total, product, factor, none⟩ :: rest ∧
      product * factor = frame.product * frame.factor * v

-- They are further terms.
def Adds (rho : String → ℚ) (ts : List Token) (v : ℚ) : Prop :=
  ∀ (frame : Frame) rest, frame.raised = none → ∃ later,
    readAll rho ts (frame :: rest) = later :: rest ∧ later.raised = none ∧
      later.result = frame.result + v

-- By themselves, or in parentheses, they have this value.
def Yields (rho : String → ℚ) (ts : List Token) (v : ℚ) : Prop :=
  ∀ rest, ∃ frame, readAll rho ts (.fresh :: rest) = frame :: rest ∧ frame.result = v

theorem readAll_append (frames : List Frame) :
    readAll rho (ts ++ us) frames = readAll rho us (readAll rho ts frames) :=
  List.foldl_append

theorem readsOperand_number (q : ℚ) : ReadsOperand rho [number q] q := fun _ _ => rfl

theorem readsOperand_letter (c : Char) :
    ReadsOperand rho [letter c] (rho (String.ofList [c])) := fun _ _ => rfl

theorem Yields.readsOperand (yields : Yields rho ts v) :
    ReadsOperand rho (opening :: ts ++ [closing]) v := by
  intro frame rest
  obtain ⟨inner, read, result⟩ := yields (frame :: rest)
  rw [readAll_append]
  change readAll rho [closing] (readAll rho ts (.fresh :: frame :: rest)) = _
  rw [read, ← result]
  rfl

theorem ReadsOperand.readsExponent (reads : ReadsOperand rho ts v) : ReadsExponent rho ts v :=
  fun frame rest _ => reads frame rest

theorem ReadsOperand.multiplies (reads : ReadsOperand rho ts v) : Multiplies rho ts v := by
  intro frame rest plain
  refine ⟨frame.product * frame.factor, v, ?_, rfl⟩
  rw [reads, Frame.operand, plain]

theorem multiplies_sign : Multiplies rho [sign] (-1) := by
  intro frame rest plain
  refine ⟨frame.product * frame.factor * -1, 1, ?_, mul_one _⟩
  change frame.negate :: rest = _
  rw [Frame.negate, plain]

theorem multiplies_none (unread : ∀ frames, readAll rho ts frames = frames) :
    Multiplies rho ts 1 := by
  intro frame rest plain
  refine ⟨frame.product, frame.factor, ?_, (mul_one _).symm⟩
  rw [unread, ← plain]

theorem Multiplies.append (left : Multiplies rho ts v) (right : Multiplies rho us w) :
    Multiplies rho (ts ++ us) (v * w) := by
  intro frame rest plain
  obtain ⟨product, factor, read, multiplied⟩ := left frame rest plain
  obtain ⟨product', factor', read', multiplied'⟩ :=
    right ⟨frame.total, product, factor, none⟩ rest rfl
  refine ⟨product', factor', ?_, ?_⟩
  · rw [readAll_append, read, read']
  · rw [multiplied', multiplied, mul_assoc]

theorem Multiplies.yields (multiplies : Multiplies rho ts v) : Yields rho ts v := by
  intro rest
  obtain ⟨product, factor, read, multiplied⟩ := multiplies .fresh rest rfl
  refine ⟨_, read, ?_⟩
  simp [Frame.result, multiplied, Frame.fresh]

theorem ReadsOperand.power (base : ReadsOperand rho ts v) (exponent : ReadsExponent rho us w) :
    Multiplies rho (ts ++ caret :: us) (integerPower v w) := by
  intro frame rest plain
  refine ⟨frame.product * frame.factor, integerPower v w, ?_, rfl⟩
  rw [readAll_append, base, Frame.operand, plain]
  change readAll rho us (Frame.raise _ :: rest) = _
  rw [exponent _ rest rfl]
  simp [Frame.operand, Frame.raise]

theorem multiplies_numeral (q : ℚ) : Multiplies rho (numeral q) q := by
  unfold numeral
  split
  · have signed : Multiplies rho ([sign] ++ [number (-q)]) (-1 * -q) :=
      multiplies_sign.append (readsOperand_number (-q)).multiplies
    rwa [neg_one_mul, neg_neg] at signed
  · exact (readsOperand_number q).multiplies

theorem readsExponent_numeral (q : ℚ) : ReadsExponent rho (numeral q) q := by
  intro frame rest raised
  unfold numeral
  split
  · obtain ⟨⟨base, signed⟩, waiting⟩ := Option.isSome_iff_exists.mp raised
    change frame.negate.operand (-q) :: rest = _
    simp [Frame.operand, Frame.negate, waiting]
  · rfl

-- The sign of an odd power is that of its base.
theorem ReadsExponent.negated_power {n : ℤ} (q : ℚ) (exponent : ReadsExponent rho us n)
    (odd : Odd n) : Multiplies rho (sign :: number (-q) :: caret :: us) (integerPower q n) := by
  have value : -1 * integerPower (-q) n = integerPower q n := by
    rw [integerPower, integerPower, Rat.num_intCast, odd.neg_zpow, neg_one_mul, neg_neg]
  rw [← value]
  exact multiplies_sign.append ((readsOperand_number (-q)).power exponent)

theorem adds_none : Adds rho [] 0 := fun frame _ plain => ⟨frame, rfl, plain, (add_zero _).symm⟩

theorem Adds.append (left : Adds rho ts v) (right : Adds rho us w) :
    Adds rho (ts ++ us) (v + w) := by
  intro frame rest plain
  obtain ⟨middle, read, plain', added⟩ := left frame rest plain
  obtain ⟨later, read', plain'', added'⟩ := right middle rest plain'
  refine ⟨later, ?_, plain'', ?_⟩
  · rw [readAll_append, read, read']
  · rw [added', added, add_assoc]

theorem Multiplies.adds (multiplies : Multiplies rho ts v) : Adds rho (plus :: ts) v := by
  intro frame rest plain
  obtain ⟨product, factor, read, multiplied⟩ := multiplies frame.next rest rfl
  refine ⟨_, read, rfl, ?_⟩
  simp [Frame.result, Frame.next, multiplied]

-- A subtraction reads like an addition of the term with its sign.
theorem Multiplies.subtracts (multiplies : Multiplies rho (sign :: ts) v) :
    Adds rho (minus :: ts) v := multiplies.adds

theorem Multiplies.yields_sum (first : Multiplies rho ts v) (later : Adds rho us w) :
    Yields rho (ts ++ us) (v + w) := by
  intro rest
  obtain ⟨product, factor, read, multiplied⟩ := first .fresh rest rfl
  obtain ⟨frame, read', _, added⟩ := later ⟨0, product, factor, none⟩ rest rfl
  refine ⟨frame, ?_, ?_⟩
  · rw [readAll_append, read]
    exact read'
  · rw [added]
    simp [Frame.result, multiplied, Frame.fresh]

end

end Token

namespace Expr

-- A power of a negative number has an odd exponent, and so the sign of its base.
def SignedNode (rho : String → ℚ) : Expr → Prop
  | .power base exponent => base.isNegativeNumber → ∃ n : ℤ, Odd n ∧ exponent.value rho = n
  | _ => True

-- The tree's tokens stand for its value: those of a sum by themselves or in parentheses, those of
-- any other tree also among other factors.
structure Reads (engine : Engine Outcome) (rho : String → ℚ) (e : Expr) : Prop where
  multiplies : e.isSum = false → Multiplies rho (Infix.tokens engine e) (e.value rho)
  yields : Yields rho (Infix.tokens engine e) (e.value rho)

namespace Reads

variable {engine : Engine Outcome} {rho : String → ℚ} {e factor following : Expr} {es : List Expr}

theorem of_multiplies (multiplies : Multiplies rho (Infix.tokens engine e) (e.value rho)) :
    e.Reads engine rho := ⟨fun _ => multiplies, multiplies.yields⟩

theorem group (reads : e.Reads engine rho) :
    ReadsOperand rho (grouped true (Infix.tokens engine e)) (e.value rho) :=
  reads.yields.readsOperand

theorem multiplies_factor (reads : e.Reads engine rho) (leading : Bool) :
    Multiplies rho (Infix.factorTokens leading e (Infix.tokens engine e)) (e.value rho) := by
  unfold Infix.factorTokens
  cases wrapped : e.isSum || (!leading && e.isNegativeNumber) with
  | true => exact reads.group.multiplies
  | false => exact reads.multiplies (Bool.or_eq_false_iff.mp wrapped).1

theorem readsOperand_symbol (engine : Engine Outcome) (legible : (symbol name).Legible) :
    ReadsOperand rho (Infix.tokens engine (.symbol name)) ((symbol name).value rho) := by
  obtain ⟨c, _, single⟩ := legible.letter
  have whole : name = String.ofList [c] := by rw [← single, String.ofList_toList]
  rw [value_symbol, Infix.tokens, single, whole]
  exact readsOperand_letter c

theorem readsExponent (reads : e.Reads engine rho) (legible : e.Legible) :
    ReadsExponent rho (grouped (!e.isTerminal) (Infix.tokens engine e)) (e.value rho) := by
  cases e with
  | nary | power => exact reads.group.readsExponent
  | symbol name => exact (readsOperand_symbol engine legible).readsExponent
  | number value =>
    obtain ⟨q, is⟩ := legible.exact.number
    change ReadsExponent rho (Infix.tokens engine (number value)) _
    rw [value_number is, Infix.tokens_number is]
    exact readsExponent_numeral q

theorem readsOperand (reads : e.Reads engine rho) (legible : e.Legible)
    (unsigned : e.isNegativeNumber = false) :
    ReadsOperand rho (grouped (!e.isTerminal) (Infix.tokens engine e)) (e.value rho) := by
  cases e with
  | nary | power => exact reads.group
  | symbol name => exact readsOperand_symbol engine legible
  | number value =>
    obtain ⟨q, is⟩ := legible.exact.number
    have nonneg : ¬ q < 0 :=
      of_decide_eq_false ((Literal.isNegative_eq is).symm.trans unsigned)
    change ReadsOperand rho (Infix.tokens engine (number value)) _
    rw [value_number is, Infix.tokens_number is, numeral, if_neg nonneg]
    exact readsOperand_number q

theorem of_power (ofBase : base.Reads engine rho) (ofExponent : exponent.Reads engine rho)
    (legible : (power base exponent).Legible) (signed : SignedNode rho (power base exponent)) :
    (power base exponent).Reads engine rho := by
  have legibleBase : base.Legible := legible.operand (by simp [operands])
  have read := ofExponent.readsExponent (legible.operand (by simp [operands]))
  apply of_multiplies
  rw [Infix.tokens]
  cases negative : base.isNegativeNumber with
  | false => exact (ofBase.readsOperand legibleBase negative).power read
  | true =>
    obtain ⟨n, odd, whole⟩ := signed negative
    cases base with
    | symbol | nary | power => cases negative
    | number value =>
      obtain ⟨q, is⟩ := legibleBase.exact.number
      have below : q < 0 := of_decide_eq_true ((Literal.isNegative_eq is).symm.trans negative)
      change Multiplies rho (Infix.tokens engine (number value) ++ _)
        (integerPower ((number value).value rho) (exponent.value rho))
      rw [whole] at read ⊢
      rw [value_number is, Infix.tokens_number is, numeral, if_pos below]
      exact read.negated_power q odd

theorem value_of_joint (exact : factor.Exact)
    (joined : Infix.joint engine factor following = .minus) : factor.value rho = -1 := by
  obtain ⟨value, rfl, same⟩ := Infix.eq_of_junction (Infix.junction_of_joint joined (by decide))
  obtain ⟨q, is⟩ := exact.number
  rw [value_number is]
  simpa [Literal.equalsInt_eq is] using same

theorem multiplies_factors (exact : ∀ e ∈ es, e.Exact) (reads : ∀ e ∈ es, e.Reads engine rho)
    (leading : Bool) : Multiplies rho (Infix.factorsTokens engine leading es)
      (es.map (Expr.value rho)).prod := by
  induction es generalizing leading with
  | nil => exact multiplies_none fun _ => rfl
  | cons factor rest ih =>
    have first := (reads factor (by simp)).multiplies_factor leading
    rw [List.map_cons, List.prod_cons]
    cases rest with
    | nil => simpa [Infix.factorsTokens] using first
    | cons following rest =>
      have later := ih (fun e member => exact e (List.mem_cons_of_mem factor member))
        (fun e member => reads e (List.mem_cons_of_mem factor member)) false
      rw [Infix.factorsTokens]
      refine Multiplies.append ?_ later
      cases joined : Infix.joint engine factor following with
      | adjacent => exact first
      | times =>
        have spaced : Multiplies rho [times] 1 := multiplies_none fun _ => rfl
        rw [← mul_one (factor.value rho)]
        exact first.append spaced
      | minus =>
        rw [value_of_joint (exact factor (by simp)) joined]
        exact multiplies_sign

theorem adds_later (exact : ∀ e ∈ es, e.Exact) (reads : ∀ e ∈ es, e.Reads engine rho)
    (terms : ∀ e ∈ es, e.isSum = false) : Adds rho (Infix.laterTokens engine es)
      (es.map (Expr.value rho)).sum := by
  induction es with
  | nil => exact adds_none
  | cons term rest ih =>
    have multiplies := (reads term (by simp)).multiplies (terms term (by simp))
    rw [List.map_cons, List.sum_cons, Infix.laterTokens]
    refine Adds.append ?_ (ih (fun e member => exact e (by simp [member]))
      (fun e member => reads e (by simp [member])) fun e member => terms e (by simp [member]))
    split
    · rename_i negative
      obtain ⟨ts, led⟩ := List.head?_eq_some_iff.mp
        (Infix.head_of_leadsNegative (exact term (by simp)) negative)
      rw [led] at multiplies ⊢
      exact multiplies.subtracts
    · exact multiplies.adds

end Reads

theorem isSum_of_kind_ne {e : Expr} (other : e.kind ≠ .sum) : e.isSum = false := by
  cases e with
  | number | symbol | power => rfl
  | nary op =>
    cases op with
    | product => rfl
    | sum => exact absurd rfl other

theorem Legible.reads {engine : Engine Outcome} {rho : String → ℚ} {e : Expr} (legible : e.Legible)
    (signed : e.Everywhere (SignedNode rho)) : e.Reads engine rho := by
  induction e with
  | symbol => exact .of_multiplies (Reads.readsOperand_symbol engine legible).multiplies
  | number value =>
    obtain ⟨q, is⟩ := legible.exact.number
    refine .of_multiplies ?_
    rw [value_number is, Infix.tokens_number is]
    exact multiplies_numeral q
  | power base exponent ofBase ofExponent =>
    obtain ⟨here, signedBase, signedExponent⟩ := everywhere_power.mp signed
    exact .of_power (ofBase (legible.operand (by simp [operands])) signedBase)
      (ofExponent (legible.operand (by simp [operands])) signedExponent) legible here
  | nary op es ih =>
    obtain ⟨⟨several, others⟩, _⟩ := flat_nary.mp legible.flat
    have exact := exact_nary.mp legible.exact
    have each : ∀ e ∈ es, e.Reads engine rho := fun e member =>
      ih e member (legible.operand member) (signed.operand member)
    cases op with
    | product =>
      refine .of_multiplies ?_
      rw [value_nary, Infix.tokens]
      exact Reads.multiplies_factors exact each true
    | sum =>
      have terms : ∀ e ∈ es, e.isSum = false := fun e member => isSum_of_kind_ne (others e member)
      refine ⟨fun other => absurd other.symm Bool.false_ne_true, ?_⟩
      cases es with
      | nil => simp at several
      | cons first rest =>
        rw [value_nary, Infix.tokens]
        refine Multiplies.yields_sum ((each first (by simp)).multiplies (terms first (by simp))) ?_
        exact Reads.adds_later (fun e member => exact e (by simp [member]))
          (fun e member => each e (by simp [member])) fun e member => terms e (by simp [member])

end Expr

end SymbolicArith
