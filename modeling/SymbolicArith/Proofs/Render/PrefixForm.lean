import SymbolicArith.Proofs.Render.Boundaries

open SymbolicArith.Token

-- The prefix form tells the tree up to the form of its numbers, where names are written in letters
-- only. Behind an operand comes the next one's space or the closing parenthesis, and neither stands
-- in a number or a name.
namespace SymbolicArith

namespace Expr

variable {e t u : Expr} {es : List Expr} {op : Operator} {rest rest' : List Char} {q : ℚ}

def IsBreak (c : Char) : Prop := c = ' ' ∨ c = ')'

theorem toList_prefixForms (es : List Expr) :
    (prefixForms es).toList = listed ' ' prefixForm es := by
  induction es with
  | nil => rfl
  | cons e es ih =>
    simp only [prefixForms, String.toList_append, ih, listed, List.flatMap_cons]
    rfl

theorem prefixForm_terminal (terminal : e.isTerminal = true) : e.prefixForm = e.literal := by
  cases e with
  | number | symbol => rw [prefixForm, literal]
  | nary | power => cases terminal

theorem prefixForm_composite (own : e.kind = op.kind) : e.prefixForm.toList =
    '(' :: op.sign.toList ++ listed ' ' prefixForm e.operands ++ [')'] := by
  rw [← toList_prefixForms]
  cases e with
  | number | symbol => cases own
  | nary own' es =>
    cases own
    rw [prefixForm]
    simp [operands]
  | power base exponent =>
    cases own
    simp [prefixForm, prefixForms, operands, Operator.sign]

theorem eq_of_sign {op' : Operator} (same : op.sign.toList ++ rest = op'.sign.toList ++ rest') :
    op = op' ∧ rest = rest' := by
  rcases op with (_ | _) | _ <;> rcases op' with (_ | _) | _ <;> simp_all [Operator.sign]

theorem composite_kind (composite : e.isTerminal = false) : ∃ op : Operator, e.kind = op.kind := by
  cases e with
  | number | symbol => cases composite
  | nary op => exact ⟨.nary op, rfl⟩
  | power => exact ⟨.power, rfl⟩

theorem closes_prefixForms : Closes ' ' prefixForm (EndsRun IsBreak) (·.head? = some ')') where
  ends := fun closed c head => by
    rw [closed] at head
    cases head
    exact .inr rfl
  next := endsRun_cons.mpr (.inl rfl)
  apart := by simp

theorem Printable.literal_plain (printable : e.Printable IsLetter) :
    ∀ c ∈ e.literal.toList, ¬ IsBreak c ∧ c ≠ '(' := by
  intro c member
  have plain : ¬ ((c = ' ' ∨ c = ')') ∨ c = '(') := by
    intro mark
    rcases printable.literal c member with numeric | letter
    · rcases mark with (rfl | rfl) | rfl <;> simp [IsNumeric] at numeric
    · rcases mark with (rfl | rfl) | rfl <;> simp [IsLetter] at letter
  exact not_or.mp plain

-- Only a composite's text opens a parenthesis, also when a name is empty.
theorem Printable.opens_iff (printable : e.Printable IsLetter) (ends : EndsRun IsBreak rest) :
    (e.prefixForm.toList ++ rest).head? = some '(' ↔ e.isTerminal = false := by
  cases terminal : e.isTerminal with
  | false =>
    obtain ⟨op, own⟩ := composite_kind terminal
    simp [prefixForm_composite own]
  | true =>
    rw [prefixForm_terminal terminal]
    have plain := printable.literal_plain
    cases spelt : e.literal.toList with
    | nil =>
      have noBreak : ¬ IsBreak '(' := by simp [IsBreak]
      simpa using fun opened => noBreak (ends '(' opened)
    | cons c cs =>
      rw [spelt] at plain
      simpa using (plain c (by simp)).2

-- A number is written, and not in letters.
theorem text_ne_name {value : Literal} (is : value.rational? = some q) {name : String}
    (letters : ∀ c ∈ name.toList, IsLetter c) : value.text ≠ name := by
  rw [Literal.text_eq is]
  rintro rfl
  obtain ⟨c, cs, spelt⟩ := List.exists_cons_of_ne_nil (Literal.text_exact_ne_nil (q := q))
  have member : c ∈ (Literal.exact q).text.toList := by rw [spelt]; exact .head _
  exact (Literal.numeric_of_mem_text member).not_letter (letters c member)

theorem Printable.kind_eq (printable : t.Printable IsLetter) (printable' : u.Printable IsLetter)
    (terminal : t.isTerminal = true) (terminal' : u.isTerminal = true)
    (same : t.literal = u.literal) : t.kind = u.kind := by
  cases t with
  | nary | power => cases terminal
  | number value =>
    cases u with
    | nary | power => cases terminal'
    | number => rfl
    | symbol name =>
      obtain ⟨q, is⟩ := printable.exact.number
      exact absurd same (text_ne_name is printable'.spelt.here)
  | symbol name =>
    cases u with
    | nary | power => cases terminal'
    | symbol => rfl
    | number value =>
      obtain ⟨q, is⟩ := printable'.exact.number
      exact absurd same.symm (text_ne_name is printable.spelt.here)

theorem Printable.cancel_terminal (printable : t.Printable IsLetter)
    (printable' : u.Printable IsLetter) (terminal : t.isTerminal = true)
    (terminal' : u.isTerminal = true) (ends : EndsRun IsBreak rest)
    (ends' : EndsRun IsBreak rest')
    (same : t.prefixForm.toList ++ rest = u.prefixForm.toList ++ rest') :
    t.remade = u.remade ∧ rest = rest' := by
  rw [prefixForm_terminal terminal, prefixForm_terminal terminal'] at same
  obtain ⟨texts, rests⟩ := ends.cancel ends' (fun c member => (printable.literal_plain c member).1)
    (fun c member => (printable'.literal_plain c member).1) same
  have literals : t.literal = u.literal := String.toList_injective texts
  have kinds := printable.kind_eq printable' terminal terminal' literals
  refine ⟨remade_eq_of_node printable.exact printable'.exact kinds literals ?_, rests⟩
  rw [operands_terminal terminal, operands_terminal terminal']

theorem Printable.cancel_composite (printable : t.Printable IsLetter)
    (printable' : u.Printable IsLetter) (composite : t.isTerminal = false)
    (composite' : u.isTerminal = false)
    (each : ∀ o ∈ t.operands, Recovered prefixForm (EndsRun IsBreak) IsLetter o)
    (same : t.prefixForm.toList ++ rest = u.prefixForm.toList ++ rest') :
    t.remade = u.remade ∧ rest = rest' := by
  obtain ⟨op, own⟩ := composite_kind composite
  obtain ⟨op', own'⟩ := composite_kind composite'
  rw [prefixForm_composite own, prefixForm_composite own'] at same
  simp only [List.cons_append, List.append_assoc, List.cons.injEq, true_and] at same
  obtain ⟨rfl, lists⟩ := eq_of_sign same
  obtain ⟨operands, behind⟩ := closes_prefixForms.cancel each
    (fun o member => printable'.operand member) rfl rfl lists
  have literals : t.literal = u.literal :=
    (literal_composite composite).trans (literal_composite composite').symm
  exact ⟨remade_eq_of_node printable.exact printable'.exact (own.trans own'.symm) literals operands,
    List.tail_eq_of_cons_eq behind⟩

theorem Printable.prefixForm_recovered (printable : t.Printable IsLetter) :
    Recovered prefixForm (EndsRun IsBreak) IsLetter t := by
  induction t using operands_induct with
  | node t ih =>
    intro u rest rest' printable' ends ends' same
    have alike : t.isTerminal = u.isTerminal := by
      have opens := printable.opens_iff ends
      rw [same, printable'.opens_iff ends'] at opens
      simpa using opens.symm
    cases terminal : t.isTerminal with
    | true => exact printable.cancel_terminal printable' terminal (alike ▸ terminal) ends ends' same
    | false =>
      exact printable.cancel_composite printable' terminal (alike ▸ terminal)
        (fun o member => ih o member (printable.operand member)) same

theorem prefixForms_remade (each : ∀ e ∈ es, e.remade.prefixForm = e.prefixForm) :
    prefixForms (es.map remade) = prefixForms es := by
  induction es with
  | nil => rfl
  | cons e es ih =>
    rw [List.map_cons, prefixForms, each e (by simp), prefixForms,
      ih fun o member => each o (List.mem_cons_of_mem e member)]

theorem prefixForm_remade (e : Expr) : e.remade.prefixForm = e.prefixForm := by
  induction e with
  | number value => rw [remade_number, prefixForm, prefixForm, Literal.text_remade]
  | symbol => rw [remade_symbol]
  | nary op es ih => rw [remade_nary, prefixForm, prefixForm, prefixForms_remade ih]
  | power base exponent ofBase ofExponent =>
    rw [remade_power, prefixForm, prefixForm, ofBase, ofExponent]

theorem prefixForm_eq_iff {digits : Option Nat} {a b : String} (printable : t.Printable IsLetter)
    (printable' : u.Printable IsLetter) (ofT : t.written digits prefixForm = .ok a)
    (ofU : u.written digits prefixForm = .ok b) :
    (a = b ↔ t.remade.same u.remade = true) ∧
      (t.Canonical → u.Canonical → (a = b ↔ t.same u = true)) := by
  refine text_eq_iff printable'.exact ⟨fun same => ?_, fun same => ?_⟩ ofT ofU
  · have texts : t.prefixForm.toList ++ [] = u.prefixForm.toList ++ [] := by rw [same]
    exact (printable.prefixForm_recovered printable' endsRun_nil endsRun_nil texts).1
  · rw [← prefixForm_remade t, same, prefixForm_remade]

-- Where a parenthesis closes is all that tells these two apart.
theorem prefixForm_eq_iff_of_parenthesis :
    (sum [symbol "x", product [ofInt (-2), symbol "y"]]).written none prefixForm =
        .ok "(+ x (* -2 y))" ∧
      (sum [symbol "x", product [ofInt (-2)], symbol "y"]).written none prefixForm =
        .ok "(+ x (* -2) y)" ∧
      "(+ x (* -2 y))" ≠ "(+ x (* -2) y)" := by
  have printable : (sum [symbol "x", product [ofInt (-2), symbol "y"]]).Printable IsLetter :=
    ⟨by simp [exact_ofInt, ExactNode], by simp [ofInt, SpeltNode, IsLetter]⟩
  have printable' : (sum [symbol "x", product [ofInt (-2)], symbol "y"]).Printable IsLetter :=
    ⟨by simp [exact_ofInt, ExactNode], by simp [ofInt, SpeltNode, IsLetter]⟩
  have text : (sum [symbol "x", product [ofInt (-2), symbol "y"]]).written none prefixForm =
      .ok "(+ x (* -2 y))" := rfl
  have text' : (sum [symbol "x", product [ofInt (-2)], symbol "y"]).written none prefixForm =
      .ok "(+ x (* -2) y)" := rfl
  obtain ⟨_, told⟩ := prefixForm_eq_iff printable printable' text text'
  exact ⟨text, text', (told (by decide) (by decide)).not.mpr (by decide)⟩

-- A whole ratio is written like the integer that it equals, and is not the same.
theorem prefixForm_ambiguous :
    (¬ ∀ (t u : Expr) (s : String), t.Printable IsLetter → u.Printable IsLetter →
      t.written none prefixForm = .ok s → u.written none prefixForm = .ok s → t.same u = true) ∧
      (number (.ratio 2)).written none prefixForm = .ok "2" ∧
      (ofInt 2).written none prefixForm = .ok "2" ∧ ¬ (number (.ratio 2)).same (ofInt 2) := by
  have printable : (number (.ratio 2)).Printable IsLetter :=
    ⟨by decide, everywhere_number.mpr trivial⟩
  have printable' : (ofInt 2).Printable IsLetter := ⟨by decide, everywhere_number.mpr trivial⟩
  have other : ¬ (number (.ratio 2)).same (ofInt 2) := Bool.false_ne_true
  exact ⟨fun claim => other (claim _ _ "2" printable printable' rfl rfl), rfl, rfl, other⟩

-- A space in a name could as well be in front of an operand.
example : (sum [symbol "x y"]).prefixForm = (sum [symbol "x", symbol "y"]).prefixForm := rfl

end Expr

end SymbolicArith
