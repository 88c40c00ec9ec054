import SymbolicArith.Proofs.Render.Boundaries

-- The outline tells the tree up to the form of its numbers, where no name holds a line break. A
-- line ends where the next one begins, and a node's operands end where the next line is indented
-- less than theirs. The indentation of a line is told from what is written on it, which begins with
-- the name of a kind.
namespace SymbolicArith

def tabs (depth : Nat) : String := String.ofList (List.replicate depth '\t')

@[simp] theorem toList_tabs (depth : Nat) : (tabs depth).toList = List.replicate depth '\t' :=
  String.toList_ofList

theorem tabs_succ (depth : Nat) : tabs (depth + 1) = "\t" ++ tabs depth := by
  apply String.toList_injective
  simp [List.replicate_succ]

namespace Kind

variable {k k' : Kind}

theorem lower_of_mem_name (k : Kind) : ∀ c ∈ k.name.toList, c.isLower = true := by
  rcases k with _ | _ | (_ | _) | _ <;> simp [name]

theorem name_ne_nil (k : Kind) : k.name.toList ≠ [] := by
  rcases k with _ | _ | (_ | _) | _ <;> simp [name]

theorem named?_name (k : Kind) : named? k.name = some k := by
  rcases k with _ | _ | (_ | _) | _ <;> rfl

theorem name_injective (same : k.name = k'.name) : k = k' := by
  have found := named?_name k
  rw [same, named?_name k'] at found
  exact (Option.some.inj found).symm

end Kind

namespace Expr

variable {e t u : Expr} {es : List Expr} {depth : Nat} {rest rest' : List Char}

-- What stands on a node's own line behind the indentation.
def heading (e : Expr) : String :=
  e.kind.name ++ " :" ++ if e.isTerminal then "  " ++ e.literal else ""

theorem heading_injective (same : t.heading = u.heading) :
    t.kind = u.kind ∧ t.literal = u.literal := by
  have noSpace : ∀ (k : Kind), ∀ c ∈ k.name.toList, ¬ c = ' ' := by
    rintro k _ member rfl
    cases k.lower_of_mem_name _ member
  have texts := congrArg String.toList same
  simp only [heading, String.toList_append, List.append_assoc] at texts
  have spaced : ∀ cs, EndsRun (· = ' ') (" :".toList ++ cs) := fun cs => endsRun_cons.mpr rfl
  obtain ⟨names, behind⟩ := (spaced _).cancel (spaced _) (noSpace t.kind) (noSpace u.kind) texts
  have kinds : t.kind = u.kind := Kind.name_injective (String.toList_injective names)
  have alike : t.isTerminal = u.isTerminal := congrArg Kind.isTerminal kinds
  refine ⟨kinds, ?_⟩
  rw [alike] at behind
  cases terminal : u.isTerminal with
  | true =>
    rw [terminal] at behind
    exact String.toList_injective (by simpa using behind)
  | false => rw [literal_composite terminal, literal_composite (alike.trans terminal)]

theorem Printable.heading_unbroken (printable : e.Printable (· ≠ '\n')) :
    ∀ c ∈ e.heading.toList, ¬ c = '\n' := by
  rintro _ member rfl
  simp only [heading, String.toList_append, List.mem_append] at member
  rcases member with (ofName | ofColon) | ofLiteral
  · cases e.kind.lower_of_mem_name _ ofName
  · simp at ofColon
  · split at ofLiteral
    · simp only [String.toList_append, List.mem_append] at ofLiteral
      rcases ofLiteral with ofSpace | ofLiteral
      · simp at ofSpace
      · rcases printable.literal _ ofLiteral with numeric | other
        · simp [IsNumeric] at numeric
        · exact other rfl
    · simp at ofLiteral

theorem heading_not_indented : ¬ ['\t'] <+: e.heading.toList ++ rest := by
  obtain ⟨c, cs, spelt⟩ := List.exists_cons_of_ne_nil e.kind.name_ne_nil
  have lower : c.isLower = true := e.kind.lower_of_mem_name c (by rw [spelt]; exact .head cs)
  simp only [heading, String.toList_append, spelt, List.cons_append]
  rw [List.cons_prefix_cons]
  rintro ⟨rfl, _⟩
  cases lower

theorem outline_eq (indent : String) (e : Expr) :
    e.outline indent = indent ++ e.heading ++ outlines ("\t" ++ indent) e.operands := by
  apply String.toList_injective
  cases e with
  | number | symbol =>
    simp [outline, outlines, heading, literal, operands, isTerminal, kind, Kind.isTerminal,
      Kind.name]
  | nary op es =>
    simp [outline, heading, operands, isTerminal, kind, Nary.kind, Kind.isTerminal]
  | power base exponent =>
    simp [outline, outlines, heading, operands, isTerminal, kind, Kind.isTerminal, Kind.name]

theorem toList_outlines (depth : Nat) (es : List Expr) :
    (outlines (tabs depth) es).toList = listed '\n' (outline (tabs depth)) es := by
  induction es with
  | nil => rfl
  | cons e es ih =>
    simp only [outlines, String.toList_append, ih, listed, List.flatMap_cons]
    rfl

-- The end of the text, or the end of a line before one that is indented by no more than the depth.
structure Outdented (depth : Nat) (rest : List Char) : Prop where
  line : EndsRun (· = '\n') rest
  shallow : ¬ '\n' :: List.replicate (depth + 1) '\t' <+: rest

theorem outdented_nil : Outdented depth [] := ⟨endsRun_nil, by simp⟩

theorem closes_outlines : Closes '\n' (outline (tabs (depth + 1))) (Outdented (depth + 1))
    (Outdented depth) where
  ends := fun ⟨line, shallow⟩ => by
    refine ⟨line, fun deep => shallow (List.IsPrefix.trans ?_ deep)⟩
    rw [List.replicate_succ' (n := depth + 1), ← List.cons_append]
    exact List.prefix_append _ _
  next := by
    refine ⟨endsRun_cons.mpr rfl, fun deep => ?_⟩
    rw [outline_eq, List.cons_append, List.cons_prefix_cons, List.replicate_succ'] at deep
    simp only [String.toList_append, toList_tabs, List.append_assoc, List.prefix_append_right_inj]
      at deep
    exact heading_not_indented deep.2
  apart := fun ⟨_, shallow⟩ => by
    rw [outline_eq] at shallow
    simp only [String.toList_append, toList_tabs, List.append_assoc, ← List.cons_append] at shallow
    exact shallow (List.prefix_append _ _)

theorem Printable.outline_recovered (printable : t.Printable (· ≠ '\n')) :
    Recovered (outline (tabs depth)) (Outdented depth) (· ≠ '\n') t := by
  induction t using operands_induct generalizing depth with
  | node t ih =>
    intro u rest rest' printable' ends ends' same
    simp only [outline_eq (tabs depth), ← tabs_succ, String.toList_append, toList_outlines,
      List.append_assoc, List.append_cancel_left_eq] at same
    obtain ⟨headings, lists⟩ := (closes_outlines.after_listed ends).line.cancel
      (closes_outlines.after_listed ends').line printable.heading_unbroken
      printable'.heading_unbroken same
    obtain ⟨kinds, literals⟩ := heading_injective (String.toList_injective headings)
    obtain ⟨operands, rests⟩ := closes_outlines.cancel
      (fun o member => ih o member (printable.operand member))
      (fun o member => printable'.operand member) ends ends' lists
    exact ⟨remade_eq_of_node printable.exact printable'.exact kinds literals operands, rests⟩

theorem outlines_remade {indent : String}
    (each : ∀ e ∈ es, ∀ indent, e.remade.outline indent = e.outline indent) :
    outlines indent (es.map remade) = outlines indent es := by
  induction es with
  | nil => rfl
  | cons e es ih =>
    rw [List.map_cons, outlines, each e (by simp), outlines,
      ih fun o member => each o (List.mem_cons_of_mem e member)]

theorem outline_remade (e : Expr) (indent : String) :
    e.remade.outline indent = e.outline indent := by
  induction e generalizing indent with
  | number value => rw [remade_number, outline, outline, Literal.text_remade]
  | symbol => rw [remade_symbol]
  | nary op es ih => rw [remade_nary, outline, outline, outlines_remade ih]
  | power base exponent ofBase ofExponent =>
    rw [remade_power, outline, outline, ofBase, ofExponent]

theorem outline_eq_iff {digits : Option Nat} {a b : String} (printable : t.Printable (· ≠ '\n'))
    (printable' : u.Printable (· ≠ '\n')) (ofT : t.written digits (outline "") = .ok a)
    (ofU : u.written digits (outline "") = .ok b) :
    (a = b ↔ t.remade.same u.remade = true) ∧
      (t.Canonical → u.Canonical → (a = b ↔ t.same u = true)) := by
  refine text_eq_iff printable'.exact ⟨fun same => ?_, fun same => ?_⟩ ofT ofU
  · have texts : (t.outline (tabs 0)).toList ++ [] = (u.outline (tabs 0)).toList ++ [] :=
      congrArg (·.toList ++ []) same
    exact (printable.outline_recovered printable' outdented_nil outdented_nil texts).1
  · rw [← outline_remade t, same, outline_remade]

-- One tab tells these two apart, in spite of the one in the name.
theorem outline_eq_iff_of_tab :
    (sum [product [symbol "x"], symbol "sum :\ty"]).written none (outline "") =
        .ok "sum :\n\tproduct :\n\t\tsymbol :  x\n\tsymbol :  sum :\ty" ∧
      (sum [product [symbol "x", symbol "sum :\ty"]]).written none (outline "") =
        .ok "sum :\n\tproduct :\n\t\tsymbol :  x\n\t\tsymbol :  sum :\ty" ∧
      "sum :\n\tproduct :\n\t\tsymbol :  x\n\tsymbol :  sum :\ty" ≠
        "sum :\n\tproduct :\n\t\tsymbol :  x\n\t\tsymbol :  sum :\ty" := by
  have printable : (sum [product [symbol "x"], symbol "sum :\ty"]).Printable (· ≠ '\n') :=
    ⟨by simp [ExactNode], by simp [SpeltNode]⟩
  have printable' : (sum [product [symbol "x", symbol "sum :\ty"]]).Printable (· ≠ '\n') :=
    ⟨by simp [ExactNode], by simp [SpeltNode]⟩
  have text : (sum [product [symbol "x"], symbol "sum :\ty"]).written none (outline "") = .ok _ :=
    rfl
  have text' : (sum [product [symbol "x", symbol "sum :\ty"]]).written none (outline "") = .ok _ :=
    rfl
  obtain ⟨_, told⟩ := outline_eq_iff printable printable' text text'
  exact ⟨text, text', (told (by decide) (by decide)).not.mpr (by decide)⟩

-- A whole ratio is written like the integer that it equals, and is not the same.
theorem outline_ambiguous :
    (¬ ∀ (t u : Expr) (s : String), t.Printable (· ≠ '\n') → u.Printable (· ≠ '\n') →
      t.written none (outline "") = .ok s → u.written none (outline "") = .ok s →
        t.same u = true) ∧
      (number (.ratio 3)).written none (outline "") = .ok "number :  3" ∧
      (ofInt 3).written none (outline "") = .ok "number :  3" ∧
      ¬ (number (.ratio 3)).same (ofInt 3) := by
  have printable : (number (.ratio 3)).Printable (· ≠ '\n') :=
    ⟨by decide, everywhere_number.mpr trivial⟩
  have printable' : (ofInt 3).Printable (· ≠ '\n') := ⟨by decide, everywhere_number.mpr trivial⟩
  have other : ¬ (number (.ratio 3)).same (ofInt 3) := Bool.false_ne_true
  exact ⟨fun claim => other (claim _ _ _ printable printable' rfl rfl), rfl, rfl, other⟩

-- A line break in a name could as well be in front of an operand.
example : (sum [symbol "x\n\tsymbol :  y"]).outline "" =
    (sum [symbol "x", symbol "y"]).outline "" := rfl

end Expr

end SymbolicArith
