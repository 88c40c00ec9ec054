import SymbolicArith.Proofs.Render.Spelling
import SymbolicArith.Proofs.WellFormed

open SymbolicArith.Expr SymbolicArith.Outcome SymbolicArith.Token SymbolicArith.Engine

-- Legible trees: symbols are single letters, and no product writes a digit directly behind a digit.
-- The text of such a tree has no other tokens than those of the tree.
namespace SymbolicArith

namespace Expr

-- A symbol of one letter.
def LetteredNode : Expr → Prop
  | .symbol name => name.toList.length = 1 ∧ ∀ c ∈ name.toList, IsLetter c
  | _ => True

instance : DecidablePred LetteredNode
  | .symbol name => inferInstanceAs
    (Decidable (name.toList.length = 1 ∧ ∀ c ∈ name.toList, IsLetter c))
  | .number _ | .nary _ _ | .power _ _ => .isTrue trivial

abbrev Lettered : Expr → Prop := Everywhere LetteredNode

-- A negative number that does not lead its product is parenthesised.
def endsInDigit (leading : Bool) : Expr → Bool
  | .number value => leading || !value.isNegative
  | .power _ exponent => exponent.isNumber
  | _ => false

def startsWithDigit : Expr → Bool
  | .number value => !value.isNegative
  | .power base _ => base.isNumber && !base.isNegativeNumber
  | _ => false

-- Where the digits of two neighbours would meet, a separator is between them.
def Spaced (leading : Bool) : List Expr → Prop
  | factor :: following :: rest =>
    (factor.endsInDigit leading → following.startsWithDigit →
      ¬ Answers {} (Infix.junction · factor following) .adjacent) ∧
      Spaced false (following :: rest)
  | _ => True

def SpacedNode : Expr → Prop
  | .product factors => Spaced true factors
  | _ => True

structure Legible (e : Expr) : Prop where
  wellFormed : e.WellFormed
  exact : e.Exact
  lettered : e.Lettered
  spaced : e.Everywhere SpacedNode

namespace Legible

variable {e o : Expr}

theorem flat (legible : e.Legible) : e.Flat := (wellFormed_iff.mp legible.wellFormed).1

theorem operand (legible : e.Legible) (member : o ∈ e.operands) : o.Legible :=
  ⟨legible.wellFormed.operand member, legible.exact.operand member, legible.lettered.operand member,
    legible.spaced.operand member⟩

theorem letter {name : String} (legible : (symbol name).Legible) :
    ∃ c, IsLetter c ∧ name.toList = [c] := by
  obtain ⟨one, letters⟩ := legible.lettered.here
  obtain ⟨c, single⟩ := List.length_eq_one_iff.mp one
  exact ⟨c, letters c (by simp [single]), single⟩

end Legible

end Expr

namespace Token

variable {ts us : List Token}

theorem clear_numeral (q : ℚ) : Clear (numeral q) := by
  unfold numeral
  split
  · rename_i negative
    have number : Clear [number (-q)] := clear_singleton (le_of_lt (neg_pos.mpr negative))
    exact number.mark_cons rfl
  · rename_i nonneg
    exact clear_singleton (not_lt.mp nonneg)

theorem Clear.tail (clear : Clear ts) : Clear ts.tail := by
  cases ts with
  | nil => exact clear
  | cons => exact clear.of_cons

theorem Clear.grouped (clear : Clear ts) (wrapped : Bool) : Clear (Token.grouped wrapped ts) := by
  cases wrapped with
  | false => exact clear
  | true => exact (clear.mark_cons rfl).append_mark rfl clear_nil

end Token

namespace Infix

variable {engine : Engine Outcome} {e factor following : Expr} {es : List Expr} {leading : Bool}
  {t : Token} {ts us : List Token}

theorem last_grouped : (ts ++ grouped true us).getLast? = some closing := by
  rw [grouped, if_pos rfl, ← List.append_assoc, List.getLast?_concat]

theorem letters_numberless {name : String} (member : t ∈ name.toList.map letter) :
    t.isNumber = false := by
  obtain ⟨c, _, rfl⟩ := List.mem_map.mp member
  rfl

theorem last_power (last : (tokens engine (.power base exponent)).getLast? = some t)
    (digit : t.isNumber = true) : exponent.isNumber = true := by
  rw [tokens] at last
  cases exponent with
  | number => rfl
  | symbol name =>
    rw [List.getLast?_append_cons] at last
    rcases List.mem_cons.mp (List.mem_of_getLast? last) with rfl | member
    · cases digit
    · rw [letters_numberless member] at digit
      cases digit
  | nary | power =>
    rw [List.append_cons] at last
    cases last_grouped.symm.trans last
    cases digit

theorem last_factorTokens (other : factor.kind ≠ .product)
    (last : (factorTokens leading factor (tokens engine factor)).getLast? = some t)
    (digit : t.isNumber = true) : factor.endsInDigit leading = true := by
  unfold factorTokens at last
  cases wrapped : factor.isSum || (!leading && factor.isNegativeNumber) with
  | true =>
    rw [wrapped, ← List.nil_append (grouped _ _), last_grouped] at last
    cases last
    cases digit
  | false =>
    rw [wrapped] at last
    change (tokens engine factor).getLast? = some t at last
    cases factor with
    | number value =>
      change (leading || !value.isNegative) = true
      change (!leading && value.isNegative) = false at wrapped
      cases leading with
      | false => simpa using wrapped
      | true => rfl
    | symbol name =>
      rw [tokens] at last
      rw [letters_numberless (List.mem_of_getLast? last)] at digit
      cases digit
    | nary op es =>
      cases op with
      | product => exact absurd rfl other
      | sum => cases wrapped
    | power base exponent => exact last_power last digit

-- There is a first token, and it is a number only if this holds.
def Begins (p : Prop) (ts : List Token) : Prop :=
  ∃ t, ts.head? = some t ∧ (t.isNumber = true → p)

theorem begins_of_numberless {p : Prop} (other : t.isNumber = false) : Begins p (t :: ts) := by
  refine ⟨t, rfl, fun digit => ?_⟩
  rw [other] at digit
  cases digit

theorem Begins.append {p : Prop} (begins : Begins p ts) (us : List Token) :
    Begins p (ts ++ us) := by
  obtain ⟨t, head, only⟩ := begins
  obtain ⟨rest, rfl⟩ := List.head?_eq_some_iff.mp head
  exact ⟨t, rfl, only⟩

theorem Begins.imp {p q : Prop} (begins : Begins p ts) (implies : p → q) : Begins q ts := by
  obtain ⟨t, head, only⟩ := begins
  exact ⟨t, head, fun digit => implies (only digit)⟩

theorem begins_symbol {name : String} {p : Prop} (engine : Engine Outcome)
    (legible : (symbol name).Legible) : Begins p (tokens engine (.symbol name)) := by
  obtain ⟨c, _, single⟩ := legible.letter
  rw [tokens, single]
  exact begins_of_numberless rfl

theorem begins_number {value : Literal} (engine : Engine Outcome)
    (legible : (Expr.number value).Legible) :
    Begins (value.isNegative = false) (tokens engine (.number value)) := by
  obtain ⟨q, is⟩ := legible.exact.number
  rw [tokens_number is, Literal.isNegative_eq is, numeral]
  split
  · exact begins_of_numberless rfl
  · rename_i nonneg
    exact ⟨number q, rfl, fun _ => decide_eq_false nonneg⟩

theorem begins_power (legible : base.Legible) :
    Begins ((power base exponent).startsWithDigit = true)
      (tokens engine (.power base exponent)) := by
  rw [tokens]
  cases base with
  | nary | power => exact begins_of_numberless rfl
  | symbol => exact (begins_symbol engine legible).append _
  | number value =>
    refine ((begins_number engine legible).append _).imp fun unsigned => ?_
    simp [startsWithDigit, Expr.isNumber, isNegativeNumber, unsigned]

theorem begins_factor (other : factor.kind ≠ .product) (legible : factor.Legible) :
    Begins (factor.startsWithDigit = true) (factorTokens false factor (tokens engine factor)) := by
  cases factor with
  | symbol => exact begins_symbol engine legible
  | power => exact begins_power (legible.operand (by simp [operands]))
  | nary op es =>
    cases op with
    | product => exact absurd rfl other
    | sum => exact begins_of_numberless rfl
  | number value =>
    change Begins _ (grouped value.isNegative (tokens engine (.number value)))
    cases negative : value.isNegative with
    | true => exact begins_of_numberless rfl
    | false =>
      refine (begins_number engine legible).imp fun unsigned => ?_
      simp [startsWithDigit, unsigned]

-- Behind a factor without a separator comes what does not go on with its digits.
theorem apart_factors (other : factor.kind ≠ .product) (other' : following.kind ≠ .product)
    (legible : following.Legible)
    (spaced : ¬ (factor.endsInDigit leading = true ∧ following.startsWithDigit = true)) :
    ∀ t ∈ (factorTokens leading factor (tokens engine factor)).getLast?,
      ∀ u ∈ (factorsTokens engine false (following :: es)).head?, Apart t u := by
  rintro t last u head ⟨digit, digit'⟩
  have ends := last_factorTokens other last digit
  obtain ⟨v, first, starts⟩ := begins_factor other' legible
  have begins : u = v ∨ u = sign := by
    rcases head_factorsTokens first with same | same
    · exact .inl (Option.some.inj (head.symm.trans same))
    · exact .inr (Option.some.inj (head.symm.trans same))
  rcases begins with rfl | rfl
  · exact spaced ⟨ends, starts digit'⟩
  · cases digit'

theorem clear_factorsTokens (others : ∀ e ∈ es, e.kind ≠ .product) (legible : ∀ e ∈ es, e.Legible)
    (spaced : Spaced leading es) (clear : ∀ e ∈ es, Clear (tokens (unbounded {}) e)) :
    Clear (factorsTokens (unbounded {}) leading es) := by
  induction es generalizing leading with
  | nil =>
    rw [factorsTokens]
    exact clear_nil
  | cons factor rest ih =>
    have here : Clear (factorTokens leading factor (tokens (unbounded {}) factor)) :=
      (clear factor (by simp)).grouped _
    cases rest with
    | nil =>
      rw [factorsTokens]
      exact here
    | cons following rest =>
      obtain ⟨separate, spaced⟩ := spaced
      have later := ih (fun e member => others e (List.mem_cons_of_mem factor member))
        (fun e member => legible e (List.mem_cons_of_mem factor member)) spaced
        (fun e member => clear e (List.mem_cons_of_mem factor member))
      rw [factorsTokens]
      cases joined : joint (unbounded {}) factor following with
      | minus => exact later.mark_cons rfl
      | times =>
        rw [Junction.follow, List.append_assoc]
        exact here.append_mark rfl later
      | adjacent =>
        refine here.append later (apart_factors (others factor (by simp))
          (others following (by simp)) (legible following (by simp)) ?_)
        rintro ⟨ends, starts⟩
        have answered := junction_of_joint joined (by decide)
        exact separate ends starts
          ((answers_iff ((unbounded_inStep {}).junction factor following)).mpr answered)

-- Every further term begins with a mark.
theorem clear_laterTokens (clear : ∀ e ∈ es, Clear (tokens engine e)) (before : Clear ts) :
    Clear (ts ++ laterTokens engine es) := by
  induction es generalizing ts with
  | nil =>
    rw [laterTokens, List.append_nil]
    exact before
  | cons term rest ih =>
    have here := clear term (by simp)
    rw [laterTokens, ← List.append_assoc]
    refine ih (fun e member => clear e (by simp [member])) ?_
    split
    · exact before.append_mark rfl here.tail
    · exact before.append_mark rfl here

theorem clear_tokens (legible : e.Legible) : Clear (tokens (unbounded {}) e) := by
  induction e with
  | number value =>
    obtain ⟨q, is⟩ := legible.exact.number
    rw [tokens_number is]
    exact clear_numeral q
  | symbol name =>
    obtain ⟨c, isLetter, single⟩ := legible.letter
    rw [tokens, single]
    exact clear_singleton isLetter
  | power base exponent ofBase ofExponent =>
    have left := ofBase (legible.operand (by simp [operands]))
    have right := ofExponent (legible.operand (by simp [operands]))
    rw [tokens]
    exact (left.grouped _).append_mark rfl (right.grouped _)
  | nary op es ih =>
    have below : ∀ e ∈ es, e.Legible := fun e member => legible.operand member
    have each : ∀ e ∈ es, Clear (tokens (unbounded {}) e) := fun e member =>
      ih e member (below e member)
    cases op with
    | product =>
      obtain ⟨⟨_, others⟩, _⟩ := flat_nary.mp legible.flat
      rw [tokens]
      exact clear_factorsTokens others below legible.spaced.here each
    | sum =>
      cases es with
      | nil =>
        rw [tokens]
        exact clear_nil
      | cons first rest =>
        rw [tokens]
        exact clear_laterTokens (fun e member => each e (by simp [member])) (each first (by simp))

end Infix

end SymbolicArith
