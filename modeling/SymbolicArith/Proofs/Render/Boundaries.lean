import SymbolicArith.Proofs.Expr.Recasting
import SymbolicArith.Proofs.Render.Legible
import SymbolicArith.Render.Outline

open SymbolicArith.Token

-- Where a tree's text ends in a longer one. A text is cancelled together with what is behind it: a
-- run of characters ends at the first stop, the text of a number is its own only, and the texts of
-- a list end where no further separator follows. A whole ratio is written like the integer that it
-- equals, so trees are recovered up to the form of their numbers.
namespace SymbolicArith

-- A rest that is empty or begins with a stop ends a run of other characters.
def EndsRun (stop : Char → Prop) (rest : List Char) : Prop := ∀ c ∈ rest.head?, stop c

-- What the texts of exact numbers are written with.
def IsNumeric (c : Char) : Prop := c.isDigit = true ∨ c = '-' ∨ c = '/'

section Runs

variable {stop : Char → Prop} {run run' rest rest' : List Char} {c : Char} {p q : ℚ}

theorem endsRun_nil : EndsRun stop [] := nofun

theorem endsRun_cons : EndsRun stop (c :: rest) ↔ stop c := by simp [EndsRun]

theorem EndsRun.cancel (ends : EndsRun stop rest) (ends' : EndsRun stop rest')
    (free : ∀ c ∈ run, ¬ stop c) (free' : ∀ c ∈ run', ¬ stop c)
    (same : run ++ rest = run' ++ rest') : run = run' ∧ rest = rest' := by
  induction run generalizing run' with
  | nil =>
    cases run' with
    | nil => exact ⟨rfl, same⟩
    | cons c run' =>
      rw [List.nil_append] at same
      rw [same] at ends
      exact absurd (endsRun_cons.mp ends) (free' c (by simp))
  | cons c run ih =>
    cases run' with
    | nil =>
      rw [List.nil_append] at same
      rw [← same] at ends'
      exact absurd (endsRun_cons.mp ends') (free c (by simp))
    | cons c' run' =>
      obtain ⟨rfl, behind⟩ := List.cons.inj same
      obtain ⟨rfl, rests⟩ := ih (fun d member => free d (List.mem_cons_of_mem c member))
        (fun d member => free' d (List.mem_cons_of_mem c member)) behind
      exact ⟨rfl, rests⟩

theorem IsNumeric.not_letter (numeric : IsNumeric c) : ¬ IsLetter c := by
  rintro ⟨digit, other⟩
  rcases numeric with isDigit | rfl | rfl
  · rw [digit] at isDigit
    cases isDigit
  · simp at other
  · simp at other

namespace Token

theorem numeral_injective : Function.Injective numeral := by
  intro p q same
  unfold numeral at same
  split at same <;> split at same
  · exact neg_injective (number.inj (List.cons.inj (List.cons.inj same).2).1)
  · cases same
  · cases same
  · exact number.inj (List.cons.inj same).1

theorem numeric_of_mem_number (nonneg : 0 ≤ q) (member : c ∈ (number q).spelling) :
    IsNumeric c := by
  by_cases whole : q.den = 1
  · rw [spelling_whole nonneg whole] at member
    exact .inl (digits_isDigit c member)
  · rw [spelling_fraction nonneg whole, List.mem_append, List.mem_cons] at member
    rcases member with ofNum | rfl | ofDen
    · exact .inl (digits_isDigit c ofNum)
    · exact .inr (.inr rfl)
    · exact .inl (digits_isDigit c ofDen)

end Token

namespace Literal

theorem text_exact_injective (same : (exact p).text = (exact q).text) : p = q := by
  have spelt : spelled (numeral p) = spelled (numeral q) := by
    rw [← spelled_numeral, ← spelled_numeral, same]
  exact numeral_injective ((clear_numeral p).eq_of_spelled_eq (clear_numeral q) spelt)

theorem numeric_of_mem_text (member : c ∈ (exact q).text.toList) : IsNumeric c := by
  rw [spelled_numeral, numeral] at member
  split at member
  · rename_i negative
    rcases List.mem_cons.mp member with rfl | behind
    · exact .inr (.inl rfl)
    · exact numeric_of_mem_number (neg_pos.mpr negative).le (by simpa using behind)
  · rename_i nonneg
    exact numeric_of_mem_number (not_lt.mp nonneg) (by simpa using member)

theorem text_exact_ne_nil : (exact q).text.toList ≠ [] := by
  intro empty
  have spelt : spelled (numeral q) = spelled [] := by rw [← spelled_numeral, empty, spelled_nil]
  have none : numeral q = [] := (clear_numeral q).eq_of_spelled_eq clear_nil spelt
  unfold numeral at none
  split at none <;> cases none

end Literal

end Runs

namespace Expr

variable {allowed : Char → Prop} {e o t u : Expr} {ts us : List Expr} {rest rest' : List Char}

-- What holds of a tree if it holds of the operands holds of all trees.
theorem operands_induct {motive : Expr → Prop}
    (node : ∀ e : Expr, (∀ o ∈ e.operands, motive o) → motive e) (e : Expr) : motive e := by
  induction e with
  | number | symbol => exact node _ nofun
  | nary op es ih => exact node _ ih
  | power base exponent ofBase ofExponent => exact node _ (by simp [operands, ofBase, ofExponent])

-- The text of a terminal.
def literal : Expr → String
  | .number value => value.text
  | .symbol name => name
  | .nary _ _ | .power _ _ => ""

def SpeltNode (allowed : Char → Prop) : Expr → Prop
  | .symbol name => ∀ c ∈ name.toList, allowed c
  | _ => True

theorem operands_terminal (terminal : e.isTerminal = true) : e.operands = [] := by
  cases e with
  | number | symbol => rfl
  | nary | power => cases terminal

theorem literal_composite (composite : e.isTerminal = false) : e.literal = "" := by
  cases e with
  | number | symbol => cases composite
  | nary | power => rfl

-- A tree without floats whose names hold allowed characters only. A name may be empty.
structure Printable (allowed : Char → Prop) (e : Expr) : Prop where
  exact : e.Exact
  spelt : e.Everywhere (SpeltNode allowed)

theorem Printable.operand (printable : e.Printable allowed) (member : o ∈ e.operands) :
    o.Printable allowed :=
  ⟨printable.exact.operand member, printable.spelt.operand member⟩

theorem Printable.literal (printable : e.Printable allowed) :
    ∀ c ∈ e.literal.toList, IsNumeric c ∨ allowed c := by
  intro c member
  cases e with
  | number value =>
    obtain ⟨q, is⟩ := printable.exact.number
    rw [Expr.literal, Literal.text_eq is] at member
    exact .inl (Literal.numeric_of_mem_text member)
  | symbol name => exact .inr (printable.spelt.here c member)
  | nary | power => simp [Expr.literal] at member

theorem remade_eq_of_node (exact : t.Exact) (exact' : u.Exact) (kinds : t.kind = u.kind)
    (literals : t.literal = u.literal) (operands : t.operands.map remade = u.operands.map remade) :
    t.remade = u.remade := by
  cases t with
  | number value =>
    cases u with
    | number value' =>
      obtain ⟨p, is⟩ := exact.number
      obtain ⟨q, is'⟩ := exact'.number
      rw [literal, literal, Literal.text_eq is, Literal.text_eq is'] at literals
      rw [remade_number, remade_number, Literal.remade_eq is, Literal.remade_eq is',
        Literal.text_exact_injective literals]
    | symbol | nary | power => cases kinds
  | symbol name =>
    cases u with
    | symbol name' => exact congrArg (remade ∘ symbol) literals
    | number | nary | power => cases kinds
  | nary op es =>
    cases u with
    | nary op' es' =>
      cases kinds
      rw [remade_nary, remade_nary]
      exact congrArg (nary op) operands
    | number | symbol | power => cases kinds
  | power base exponent =>
    cases u with
    | power base' exponent' =>
      obtain ⟨bases, exponents⟩ := List.cons.inj operands
      rw [remade_power, remade_power, bases, (List.cons.inj exponents).1]
    | number | symbol | nary => cases kinds

-- In front of two such rests the text of the tree is that of another one only if the trees are the
-- same up to the form of their numbers, and then the rests are the same.
def Recovered (text : Expr → String) (after : List Char → Prop) (allowed : Char → Prop)
    (t : Expr) : Prop :=
  ∀ {u : Expr} {rest rest' : List Char}, u.Printable allowed → after rest → after rest' →
    (text t).toList ++ rest = (text u).toList ++ rest' → t.remade = u.remade ∧ rest = rest'

-- The texts of several trees, a separator in front of each.
def listed (separator : Char) (text : Expr → String) (es : List Expr) : List Char :=
  es.flatMap fun e => separator :: (text e).toList

-- What may follow a member of a list, and what may follow the list itself: the latter may follow its
-- last member, and a further member may follow a member but not the list.
structure Closes (separator : Char) (text : Expr → String) (after last : List Char → Prop) :
    Prop where
  ends : ∀ {rest}, last rest → after rest
  next : ∀ {e rest}, after (separator :: (text e).toList ++ rest)
  apart : ∀ {e rest}, ¬ last (separator :: (text e).toList ++ rest)

namespace Closes

variable {separator : Char} {text : Expr → String} {after last : List Char → Prop}

theorem after_listed (closes : Closes separator text after last) (ends : last rest) :
    after (listed separator text ts ++ rest) := by
  cases ts with
  | nil => exact closes.ends ends
  | cons t ts =>
    rw [listed, List.flatMap_cons, List.append_assoc]
    exact closes.next

theorem cancel (closes : Closes separator text after last)
    (each : ∀ t ∈ ts, Recovered text after allowed t) (printable : ∀ u ∈ us, u.Printable allowed)
    (ends : last rest) (ends' : last rest')
    (same : listed separator text ts ++ rest = listed separator text us ++ rest') :
    ts.map remade = us.map remade ∧ rest = rest' := by
  induction ts generalizing us with
  | nil =>
    cases us with
    | nil => exact ⟨rfl, same⟩
    | cons u us =>
      change rest = separator :: (text u).toList ++ listed separator text us ++ rest' at same
      rw [same, List.append_assoc] at ends
      exact absurd ends closes.apart
  | cons t ts ih =>
    cases us with
    | nil =>
      change separator :: (text t).toList ++ listed separator text ts ++ rest = rest' at same
      rw [← same, List.append_assoc] at ends'
      exact absurd ends' closes.apart
    | cons u us =>
      have texts : (text t).toList ++ (listed separator text ts ++ rest) =
          (text u).toList ++ (listed separator text us ++ rest') := by
        simpa [listed] using same
      obtain ⟨here, behind⟩ := each t (by simp) (printable u (by simp))
        (closes.after_listed ends) (closes.after_listed ends') texts
      obtain ⟨later, rests⟩ := ih (fun o member => each o (List.mem_cons_of_mem t member))
        (fun o member => printable o (List.mem_cons_of_mem u member)) behind
      exact ⟨by rw [List.map_cons, List.map_cons, here, later], rests⟩

end Closes

theorem written_eq_ok {digits : Option Nat} {text : Expr → String} {s : String} :
    e.written digits text = .ok s ↔ e.fits digits ∧ text e = s := by
  unfold written
  split <;> simp_all

-- Where a text tells trees up to the form of their numbers and nothing more, it tells trees with
-- numbers in canonical form altogether.
theorem text_eq_iff {text : Expr → String} {a b : String} {digits : Option Nat} (exact : u.Exact)
    (alike : text t = text u ↔ t.remade = u.remade)
    (ofT : t.written digits text = .ok a) (ofU : u.written digits text = .ok b) :
    (a = b ↔ t.remade.same u.remade = true) ∧
      (t.Canonical → u.Canonical → (a = b ↔ t.same u = true)) := by
  obtain ⟨_, rfl⟩ := written_eq_ok.mp ofT
  obtain ⟨_, rfl⟩ := written_eq_ok.mp ofU
  rw [alike, ((exact_remade u).mpr exact).same_iff, exact.same_iff]
  refine ⟨Iff.rfl, fun canonical canonical' => ?_⟩
  rw [canonical.remade_eq, canonical'.remade_eq]

end Expr

end SymbolicArith
