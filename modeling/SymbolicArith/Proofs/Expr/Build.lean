import SymbolicArith.Expr.Build
import SymbolicArith.Proofs.Outcome

open SymbolicArith.Outcome

-- What the constructions make of the values they accept. Numbers and names become terminals, trees
-- stay as they are, and operators join or nest the trees of their operands.
namespace SymbolicArith.Expr

variable {value x y : Value} {values parts : List Value} {e r : Expr} {op : Nary}

mutual

theorem copy_eq : (e : Expr) → e.copy = e
  | .number _ | .symbol _ => rfl
  | .nary op operands => by rw [copy, copyAll_eq operands]
  | .power base exponent => by rw [copy, copy_eq base, copy_eq exponent]

theorem copyAll_eq : (es : List Expr) → copyAll es = es
  | [] => rfl
  | e :: es => by rw [copyAll, copy_eq e, copyAll_eq es]

end

theorem ofNumber_ok (made : ofNumber value = .ok r) :
    ∃ literal, value.literal? = some literal ∧ r = number literal := by
  unfold ofNumber at made
  split at made
  · rename_i literal real
    exact ⟨literal, real, (Except.ok.inj made).symm⟩
  · cases made

theorem ofName_ok (made : ofName value = .ok r) :
    ∃ name, name ≠ "" ∧ value = .text name ∧ r = symbol name := by
  unfold ofName at made
  split at made
  · rename_i name
    split at made
    · cases made
    · rename_i some
      exact ⟨name, by simpa using some, rfl, (Except.ok.inj made).symm⟩
  · cases made

-- What a value stands for: the tree it is, or a terminal.
inductive Stands : Value → Expr → Prop
  | tree {e : Expr} : Stands (.tree e) e
  | number {value : Value} {literal : Literal} (real : value.literal? = some literal) :
      Stands value (.number literal)
  | symbol {name : String} (some : name ≠ "") : Stands (.text name) (.symbol name)

theorem ofValue_ok (made : ofValue value = .ok r) : Stands value r := by
  unfold ofValue at made
  split at made
  · cases made
    exact .tree
  · obtain ⟨name, some, same, rfl⟩ := ofName_ok made
    exact same ▸ .symbol some
  · obtain ⟨literal, real, rfl⟩ := ofNumber_ok made
    exact .number real

theorem both_ok {combine : Expr → Expr → Expr} (made : both combine x y = .ok r) :
    ∃ a b, Stands x a ∧ Stands y b ∧ r = combine a b := by
  obtain ⟨a, ofX, made⟩ := except_bind_eq_ok.mp made
  obtain ⟨b, ofY, made⟩ := except_bind_eq_ok.mp made
  exact ⟨a, b, ofValue_ok ofX, ofValue_ok ofY, (Except.ok.inj made).symm⟩

theorem negValue_ok (made : negValue value = .ok r) : ∃ e, Stands value e ∧ r = e.neg := by
  obtain ⟨e, ofValue, made⟩ := except_bind_eq_ok.mp made
  exact ⟨e, ofValue_ok ofValue, (Except.ok.inj made).symm⟩

theorem joinValues_ok (made : joinValues op values = .ok r) :
    ∃ es, List.Forall₂ Stands values es ∧ r = op.join es := by
  obtain ⟨es, each, made⟩ := except_bind_eq_ok.mp made
  refine ⟨es, ?_, (Except.ok.inj made).symm⟩
  exact (except_mapM_eq_ok.mp each).imp fun _ _ => ofValue_ok

-- An assembly takes trees only, and keeps what each of them contributes in order.
theorem append_ok {before after : Assembly} (taken : before.append value = .ok after) :
    ∃ e, value = .tree e ∧
      after = { before with operands := before.operands ++ e.spliced before.op } := by
  obtain ⟨contributed, offered, rest⟩ := except_bind_eq_ok.mp taken
  unfold Assembly.offered at offered
  split at offered
  · cases offered
  · split at offered
    · rename_i e
      cases offered
      exact ⟨e, rfl, (Except.ok.inj rest).symm⟩
    · cases offered

theorem extend_ok {before after : Assembly} (taken : before.extend values = (after, none)) :
    ∃ es : List Expr, values = es.map .tree ∧
      after = { before with operands := before.operands ++ es.flatMap (·.spliced before.op) } := by
  induction values generalizing before with
  | nil =>
    obtain rfl : before = after := (Prod.mk.inj taken).1
    exact ⟨[], rfl, by simp⟩
  | cons value rest ih =>
    unfold Assembly.extend at taken
    split at taken
    · rename_i grown first
      obtain ⟨e, rfl, rfl⟩ := append_ok first
      obtain ⟨es, rfl, rfl⟩ := ih taken
      exact ⟨e :: es, rfl, by simp⟩
    · cases taken

theorem compose_nary_ok (made : compose (.nary op) parts = .ok r) :
    ∃ es : List Expr, parts = es.map .tree ∧ r = op.join es := by
  obtain ⟨started, start, made⟩ := except_bind_eq_ok.mp made
  simp only [Assembly.start, Nary.kind] at start
  split at start
  · rename_i taken
    cases start
    obtain ⟨es, rfl, rfl⟩ := extend_ok taken
    obtain ⟨built, build, made⟩ := except_bind_eq_ok.mp made
    cases build
    exact ⟨es, rfl, (Except.ok.inj made).symm⟩
  · cases start

theorem tree_ok (made : tree value = .ok r) : value = .tree r := by
  unfold tree at made
  split at made
  · rw [Except.ok.inj made]
  · cases made

theorem compose_power_ok (made : compose .power parts = .ok r) :
    ∃ base exponent, parts = [.tree base, .tree exponent] ∧ r = power base exponent := by
  simp only [compose, powerOfParts] at made
  split at made
  · obtain ⟨base, ofBase, made⟩ := except_bind_eq_ok.mp made
    obtain ⟨exponent, ofExponent, made⟩ := except_bind_eq_ok.mp made
    exact ⟨base, exponent, by rw [tree_ok ofBase, tree_ok ofExponent], (Except.ok.inj made).symm⟩
  · cases made

end SymbolicArith.Expr
