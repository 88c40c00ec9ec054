import SymbolicArith.Proofs.Render.Spelling
import SymbolicArith.Proofs.WellFormed

open SymbolicArith.Expr SymbolicArith.Outcome

-- Subtractions. The text of a negative term begins with a minus sign, so that taking out the first
-- minus sign takes out this one. A sum is written as its first term and the further terms, each
-- behind a plus sign, or behind a minus sign and without its own.
namespace SymbolicArith

namespace Infix

variable {engine : Engine Outcome} {e : Expr} {es : List Expr} {s : String} {digits : Option Nat}

theorem withoutMinus_minus (rest : String) : withoutMinus ("-" ++ rest) = rest := by
  simp [withoutMinus]

theorem minus_leads (exact : e.Exact) (negative : e.leadsNegative = true)
    (written : text digits engine e = .done s) : ∃ rest, s = "-" ++ rest := by
  have head : (tokens engine e).head? = some .sign := head_of_leadsNegative exact negative
  obtain ⟨ts, led⟩ := List.head?_eq_some_iff.mp head
  refine ⟨String.ofList (Token.spelled ts), String.toList_injective ?_⟩
  rw [text_spelled exact written, led]
  simp [Token.spelling]

-- What a term adds to the text of a sum in which it is not the first.
def continued (term : Expr) (text : String) : String :=
  if term.leadsNegative then " - " ++ String.ofList text.toList.tail else " + " ++ text

theorem continued_eq (exact : e.Exact) (written : text digits engine e = .done s) :
    continued e s = if e.leadsNegative then " - " ++ withoutMinus s else " + " ++ s := by
  unfold continued
  split
  · rename_i negative
    obtain ⟨rest, rfl⟩ := minus_leads exact negative written
    rw [withoutMinus_minus]
    simp
  · rfl

theorem laterTerms_continued (exact : ∀ e ∈ es, e.Exact)
    (written : laterTerms digits engine es = .done s) :
    ∃ texts, List.Forall₂ (fun e s => text digits engine e = .done s) es texts ∧
      s = String.join (List.zipWith continued es texts) := by
  induction es generalizing s with
  | nil =>
    rw [laterTerms] at written
    cases written
    exact ⟨[], .nil, rfl⟩
  | cons term rest ih =>
    simp only [laterTerms, bind_eq_done, ofOutcome_eq, pure_eq, done.injEq] at written
    obtain ⟨negative, signed, termText, here, later, others, rfl⟩ := written
    obtain ⟨texts, each, rfl⟩ := ih (fun e member => exact e (by simp [member])) others
    refine ⟨termText :: texts, .cons here each, ?_⟩
    rw [List.zipWith_cons_cons, String.join_cons, continued_eq (exact term (by simp)) here,
      isNegativeTerm_done signed]

theorem sum_continued {first : Expr} (exact : ∀ e ∈ es, e.Exact)
    (written : text digits engine (sum (first :: es)) = .done s) :
    ∃ firstText texts, text digits engine first = .done firstText ∧
      List.Forall₂ (fun e s => text digits engine e = .done s) es texts ∧
      s = firstText ++ String.join (List.zipWith continued es texts) := by
  simp only [text, bind_eq_done, pure_eq, done.injEq] at written
  obtain ⟨firstText, here, later, others, rfl⟩ := written
  obtain ⟨texts, each, rfl⟩ := laterTerms_continued exact others
  exact ⟨firstText, texts, here, each, rfl⟩

end Infix

namespace Engine

variable {e : Expr}

theorem isNegativeTerm_of_flat (flat : e.Flat) : e.isNegativeTerm = .done e.leadsNegative := by
  have some : e ≠ product [] := by
    rintro rfl
    simpa [FlatNode] using flat.here
  obtain ⟨negative, told⟩ := (isNegativeTerm_fails e).finishes fun _ reason => some reason.2
  rw [told, isNegativeTerm_done told]

-- How signs are written: whether a term is negative is told by the number that it is or begins
-- with, its text then begins with a minus sign, and in a sum this sign and no other is taken out.
-- There is a text unless a number has too many digits for one.
structure SignsTaken (e : Expr) : Prop where
  told : e.isNegativeTerm = .done e.leadsNegative
  returned : ∀ digits, e.fits digits → ∃ s, Answers {} (Infix.text digits · e) s
  leading : ∀ digits s, Answers {} (Infix.text digits · e) s → e.isNegativeTerm = .done true →
    ∃ rest, s = "-" ++ rest ∧ Infix.withoutMinus s = rest
  sum : ∀ digits s, Answers {} (Infix.text digits · e) s → ∀ first terms,
    e = sum (first :: terms) → ∃ firstText texts,
      Answers {} (Infix.text digits · first) firstText ∧
        List.Forall₂ (fun t s => Answers {} (Infix.text digits · t) s) terms texts ∧
        s = firstText ++ String.join (List.zipWith Infix.continued terms texts)

theorem subtraction_takes_sign (wellFormed : e.WellFormed) (exact : e.Exact) : SignsTaken e := by
  have flat : e.Flat := (wellFormed_iff.mp wellFormed).1
  have told := isNegativeTerm_of_flat flat
  refine ⟨told, fun digits => answers_text_of_led exact flat.led, ?_, ?_⟩
  · intro digits s written negative
    rw [told] at negative
    obtain ⟨rest, rfl⟩ :=
      Infix.minus_leads exact (done.inj negative) (answers_text.mp written)
    exact ⟨rest, rfl, Infix.withoutMinus_minus rest⟩
  · rintro digits s written first terms rfl
    have later : ∀ t ∈ terms, t.Exact := fun t member =>
      exact_nary.mp exact t (List.mem_cons_of_mem first member)
    obtain ⟨firstText, texts, here, each, whole⟩ :=
      Infix.sum_continued later (answers_text.mp written)
    exact ⟨firstText, texts, answers_text.mpr here, each.imp fun _ _ => answers_text.mpr, whole⟩

-- A minus sign stays in an exponent, in parentheses, and in a name.
theorem subtraction_takes_sign_of_signs :
    let scaled := product [ofInt (-3), power (symbol "y") (ofInt (-2))]
    let negated := product [minusOne, sum [symbol "x", minusOne]]
    let terms := [scaled, negated, symbol "-z", ofInt (-5)]
    (sum (symbol "x" :: terms)).WellFormed ∧ (sum (symbol "x" :: terms)).Exact ∧
      (∃ rest, Answers {} (Infix.text none · scaled) ("-" ++ rest) ∧
        Infix.withoutMinus ("-" ++ rest) = rest) ∧
      ∃ firstText texts, Answers {} (Infix.text none · (symbol "x")) firstText ∧
        List.Forall₂ (fun t s => Answers {} (Infix.text none · t) s) terms texts ∧
        firstText ++ String.join (List.zipWith Infix.continued terms texts) =
          "x - 3y^-2 - (x - 1) + -z - 5" := by
  intro scaled negated terms
  have wellFormed : (sum (symbol "x" :: terms)).WellFormed := by decide
  have exact : (sum (symbol "x" :: terms)).Exact := by decide
  have part : scaled ∈ (sum (symbol "x" :: terms)).operands := by simp [operands, terms]
  have run : Infix.text none (within {} 6) (sum (symbol "x" :: terms)) =
      .done "x - 3y^-2 - (x - 1) + -z - 5" := rfl
  have written : Answers {} (Infix.text none · (sum (symbol "x" :: terms))) _ :=
    .of_run (fun below => below.inStep.text _) run
  have ofPart := subtraction_takes_sign (wellFormed.operand part) (exact.operand part)
  obtain ⟨firstText, texts, first, each, whole⟩ :=
    (subtraction_takes_sign wellFormed exact).sum none _ written _ _ rfl
  obtain ⟨s, scaledText⟩ := ofPart.returned none scaled.fits_none
  obtain ⟨rest, rfl, others⟩ := ofPart.leading none s scaledText rfl
  exact ⟨wellFormed, exact, ⟨rest, scaledText, others⟩, firstText, texts, first, each, whole.symm⟩

end Engine

end SymbolicArith
