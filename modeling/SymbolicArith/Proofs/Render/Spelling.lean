import SymbolicArith.Proofs.Render.Failures
import SymbolicArith.Proofs.Render.Tokens

open SymbolicArith.Expr SymbolicArith.Outcome SymbolicArith.Token

-- The tokens of a tree, built like its text. They spell the text, and where no number directly
-- follows another they are the only ones that do.
namespace SymbolicArith

namespace Expr

def leadsNegative : Expr → Bool
  | .number value => value.isNegative
  | .product (first :: _) => first.isNegativeNumber
  | _ => false

end Expr

namespace Token

def numeral (q : ℚ) : List Token := if q < 0 then [sign, number (-q)] else [number q]

def grouped (wrapped : Bool) (ts : List Token) : List Token :=
  if wrapped then opening :: ts ++ [closing] else ts

end Token

namespace Infix

-- A factor's tokens together with what joins them to the next one's.
def Junction.follow (written : List Token) : Junction → List Token
  | .times => written ++ [Token.times]
  | .adjacent => written
  | .minus => [Token.sign]

def factorTokens (leading : Bool) (factor : Expr) (ts : List Token) : List Token :=
  grouped (factor.isSum || (!leading && factor.isNegativeNumber)) ts

-- What the engine answers, or any other junction where it does not.
def joint (engine : Engine Outcome) (factor following : Expr) : Junction :=
  match junction engine factor following with
  | .done answer => answer
  | _ => .times

mutual

def tokens (engine : Engine Outcome) : Expr → List Token
  -- floats are left out here as they are in values
  | .number value => value.rational?.elim [] numeral
  | .symbol name => name.toList.map letter
  | .sum [] => []
  | .sum (first :: rest) => tokens engine first ++ laterTokens engine rest
  | .product factors => factorsTokens engine true factors
  | .power base exponent =>
    grouped (!base.isTerminal) (tokens engine base) ++
      caret :: grouped (!exponent.isTerminal) (tokens engine exponent)

-- A term that is led by a sign gives it up to the subtraction.
def laterTokens (engine : Engine Outcome) : List Expr → List Token
  | [] => []
  | term :: rest =>
    (if term.leadsNegative then minus :: (tokens engine term).tail
      else plus :: tokens engine term) ++ laterTokens engine rest

def factorsTokens (engine : Engine Outcome) (leading : Bool) : List Expr → List Token
  | [] => []
  | [factor] => factorTokens leading factor (tokens engine factor)
  | factor :: following :: rest =>
    (joint engine factor following).follow (factorTokens leading factor (tokens engine factor)) ++
      factorsTokens engine false (following :: rest)

end

end Infix

namespace Token

variable {q : ℚ} {ts us : List Token}

@[simp] theorem spelled_nil : spelled [] = [] := rfl
@[simp] theorem spelled_cons : spelled (t :: ts) = t.spelling ++ spelled ts := rfl
@[simp] theorem spelled_append : spelled (ts ++ us) = spelled ts ++ spelled us :=
  List.flatMap_append

theorem spelled_grouped {wrapped : Bool} {text : String} (spells : text.toList = spelled ts) :
    (Infix.parenthesised wrapped text).toList = spelled (grouped wrapped ts) := by
  cases wrapped with
  | false => exact spells
  | true => simp [Infix.parenthesised, grouped, spelling, spells]

theorem text_neg (pos : 0 < q) :
    (Literal.exact (-q)).text.toList = '-' :: (Literal.exact q).text.toList := by
  have whole : ∀ n : ℤ, 0 < n → (toString (-n)).toList = '-' :: (toString n).toList := by
    intro n positive
    obtain ⟨k, rfl⟩ := Int.eq_succ_of_zero_lt positive
    exact String.toList_append
  have num := whole q.num (Rat.num_pos.mpr pos)
  simp only [Literal.text_exact, Rat.neg_num, Rat.neg_den]
  split
  · exact num
  · simp only [String.toList_append, num, List.cons_append]

theorem spelled_numeral : (Literal.exact q).text.toList = spelled (numeral q) := by
  unfold numeral
  split
  · rename_i negative
    simpa [spelling] using text_neg (neg_pos.mpr negative)
  · simp [spelling]

end Token

namespace Expr

variable {e : Expr} {b : Bool}

theorem isNegativeTerm_done (ran : e.isNegativeTerm = .done b) : e.leadsNegative = b := by
  unfold isNegativeTerm at ran
  split at ran
  · exact Outcome.done.inj ran
  · cases ran
  · exact Outcome.done.inj ran
  · rename_i notNumber notEmpty notProduct
    cases ran
    unfold leadsNegative
    split
    · exact absurd rfl (notNumber _)
    · exact absurd rfl (notProduct _ _)
    · rfl

end Expr

namespace Infix

variable {engine : Engine Outcome} {e factor following : Expr} {es : List Expr} {s : String}
  {digits : Option Nat} {leading : Bool} {value : Literal} {q : ℚ}

theorem tokens_number (is : value.rational? = some q) :
    tokens engine (.number value) = numeral q := by
  rw [tokens, is]
  rfl

-- A product begins like its first factor, unless of that one only the sign is left.
theorem head_factorsTokens {t : Token}
    (head : (factorTokens leading factor (tokens engine factor)).head? = some t) :
    (factorsTokens engine leading (factor :: es)).head? = some t ∨
      (factorsTokens engine leading (factor :: es)).head? = some sign := by
  obtain ⟨ts, written⟩ := List.head?_eq_some_iff.mp head
  cases es with
  | nil => exact .inl (by rw [factorsTokens, head])
  | cons following rest =>
    rw [factorsTokens, written]
    cases joint engine factor following with
    | times | adjacent => exact .inl rfl
    | minus => exact .inr rfl

theorem head_of_leadsNegative (exact : e.Exact) (negative : e.leadsNegative = true) :
    (tokens engine e).head? = some sign := by
  have ofNumber : ∀ {value : Literal}, (Expr.number value).Exact → value.isNegative = true →
      (tokens engine (.number value)).head? = some sign := by
    intro value exact below
    obtain ⟨q, is⟩ := exact.number
    have signed : q < 0 := of_decide_eq_true ((Literal.isNegative_eq is).symm.trans below)
    rw [tokens_number is, numeral, if_pos signed]
    rfl
  unfold leadsNegative at negative
  split at negative
  · exact ofNumber exact negative
  · rename_i first rest
    cases first with
    | symbol | power | nary => cases negative
    | number value =>
      have head := ofNumber (exact_nary.mp exact _ (by simp)) negative
      rw [tokens]
      exact or_self_iff.mp (head_factorsTokens head)
  · cases negative

theorem joint_of_done {answer : Junction}
    (answered : junction engine factor following = .done answer) :
    joint engine factor following = answer := by
  rw [joint, answered]

theorem junction_of_joint {answer : Junction} (joined : joint engine factor following = answer)
    (other : answer ≠ .times) : junction engine factor following = .done answer := by
  unfold joint at joined
  split at joined
  · rename_i answered
    rw [answered, joined]
  · exact absurd joined.symm other

-- Only a coefficient of -1 shrinks to its sign.
theorem eq_of_junction (answered : junction engine factor following = .done .minus) :
    ∃ value, factor = .number value ∧ value.equalsInt (-1) = true := by
  unfold junction at answered
  split at answered
  · cases answered
  · split at answered
    · rename_i value
      refine ⟨value, rfl, ?_⟩
      simp only [pure_eq, done.injEq] at answered
      split at answered
      · cases answered
      · split at answered
        · assumption
        · cases answered
    · obtain ⟨equal, _, joined⟩ := bind_eq_done.mp answered
      cases equal <;> cases joined

theorem spelled_joined {answer : Junction} {ts : List Token} (spells : s.toList = spelled ts) :
    (answer.joined s).toList = spelled (answer.follow ts) := by
  cases answer with
  | times => simp [Junction.joined, Junction.follow, spelling, spells]
  | adjacent => exact spells
  | minus => simp [Junction.joined, Junction.follow, spelling]

-- What is written for a tree under a limit on digits is spelled by its tokens.
def Spelled (digits : Option Nat) (engine : Engine Outcome) (e : Expr) : Prop :=
  ∀ {s}, text digits engine e = .done s → s.toList = spelled (tokens engine e)

theorem numberText_done (run : numberText digits value = .done s) : s = value.text := by
  unfold numberText at run
  split at run
  · exact (done.inj run).symm
  · cases run

theorem laterTerms_spelled (exact : ∀ e ∈ es, e.Exact) (each : ∀ e ∈ es, Spelled digits engine e)
    (run : laterTerms digits engine es = .done s) : s.toList = spelled (laterTokens engine es) := by
  induction es generalizing s with
  | nil =>
    rw [laterTerms] at run
    cases run
    rfl
  | cons term rest ih =>
    simp only [laterTerms, bind_eq_done, ofOutcome_eq, pure_eq, done.injEq] at run
    obtain ⟨negative, signed, termText, written, later, others, rfl⟩ := run
    have here := each term (by simp) written
    have behind := ih (fun e member => exact e (by simp [member]))
      (fun e member => each e (by simp [member])) others
    rw [laterTokens, isNegativeTerm_done signed, String.toList_append, behind, spelled_append]
    congr 1
    cases negative with
    | false => simp [spelling, here]
    | true =>
      have head : (tokens engine term).head? = some sign :=
        head_of_leadsNegative (exact term (by simp)) (isNegativeTerm_done signed)
      obtain ⟨ts, led⟩ := List.head?_eq_some_iff.mp head
      simp [spelling, withoutMinus, here, led]

theorem factorsText_spelled (each : ∀ e ∈ es, Spelled digits engine e)
    (run : factorsText digits engine leading es = .done s) :
    s.toList = spelled (factorsTokens engine leading es) := by
  induction es generalizing leading s with
  | nil =>
    rw [factorsText] at run
    cases run
    rfl
  | cons factor rest ih =>
    cases rest with
    | nil =>
      simp only [factorsText, bind_eq_done, pure_eq, done.injEq] at run
      obtain ⟨factorText, written, rfl⟩ := run
      rw [factorsTokens]
      exact spelled_grouped (each factor (by simp) written)
    | cons following rest =>
      simp only [Engine.factorsText_cons, bind_eq_done, pure_eq, done.injEq] at run
      obtain ⟨factorText, written, answer, joined, later, others, rfl⟩ := run
      have here : (Infix.factorText leading factor factorText).toList =
          spelled (factorTokens leading factor (tokens engine factor)) :=
        spelled_grouped (each factor (by simp) written)
      have behind := ih (fun e member => each e (List.mem_cons_of_mem factor member)) others
      rw [factorsTokens, joint_of_done joined, String.toList_append, spelled_joined here, behind,
        spelled_append]

theorem text_spelled (exact : e.Exact) : Spelled digits engine e := by
  induction e with
  | number value =>
    obtain ⟨q, is⟩ := exact.number
    intro s run
    rw [text] at run
    rw [numberText_done run, tokens_number is, Literal.text_eq is]
    exact spelled_numeral
  | symbol name =>
    intro s run
    rw [text] at run
    cases run
    simp [tokens, spelled, List.flatMap_map, spelling]
  | nary op es ih =>
    have below := exact_nary.mp exact
    have each : ∀ e ∈ es, Spelled digits engine e := fun e member => ih e member (below e member)
    intro s run
    cases op with
    | product =>
      rw [text] at run
      rw [tokens]
      exact factorsText_spelled each run
    | sum =>
      cases es with
      | nil =>
        rw [text] at run
        cases run
        rfl
      | cons first rest =>
        simp only [text, bind_eq_done, pure_eq, done.injEq] at run
        obtain ⟨firstText, written, later, others, rfl⟩ := run
        have behind := laterTerms_spelled (fun e member => below e (by simp [member]))
          (fun e member => each e (by simp [member])) others
        rw [tokens, String.toList_append, spelled_append, behind, each first (by simp) written]
  | power base exponent ofBase ofExponent =>
    obtain ⟨exactBase, exactExponent⟩ := exact_power.mp exact
    intro s run
    simp only [text, bind_eq_done, pure_eq, done.injEq] at run
    obtain ⟨baseText, writtenBase, exponentText, writtenExponent, rfl⟩ := run
    rw [tokens, String.toList_append, String.toList_append, spelled_append, spelled_cons,
      spelled_grouped (ofBase exactBase writtenBase),
      spelled_grouped (ofExponent exactExponent writtenExponent), List.append_assoc]
    rfl

end Infix

end SymbolicArith
