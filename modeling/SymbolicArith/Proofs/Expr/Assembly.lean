import SymbolicArith.Proofs.Expr.Build
import SymbolicArith.Proofs.Expr.Shape

open SymbolicArith.Expr

-- Assemblies in use. A ledger holds the trees that were taken, in the order in which they stand, and
-- whether the expression was built; rules say what each step answers and how it changes the ledger.
-- A run of an assembly answers by these rules, and at every moment holds what the trees contribute.
namespace SymbolicArith

def Value.Foreign (value : Value) : Prop := ∀ e : Expr, value ≠ .tree e

namespace Assembly

-- A tree of the operator itself contributes its operands, and any other tree itself.
def contribution (op : Nary) (e : Expr) : List Expr :=
  if e.kind = op.kind then e.operands else [e]

structure Ledger where
  trees : List Expr
  closed : Bool

namespace Ledger

def fresh : Ledger := ⟨[], false⟩

def assembly (op : Nary) (ledger : Ledger) : Assembly :=
  ⟨op, ledger.trees.flatMap (contribution op), ledger.closed⟩

end Ledger

-- The expression that operands are published as.
inductive Published (op : Nary) : List Expr → Expr → Prop
  | identity : Published op [] (.ofInt op.identity)
  | alone (e : Expr) : Published op [e] e
  | node {es : List Expr} (long : 2 ≤ es.length) : Published op es (.nary op es)

inductive Takes (op : Nary) : Ledger → Step → Answer → Ledger → Prop
  | append {trees : List Expr} (e : Expr) :
    Takes op ⟨trees, false⟩ (.append (.tree e)) (.ok none) ⟨trees ++ [e], false⟩
  | prepend {trees : List Expr} (e : Expr) :
    Takes op ⟨trees, false⟩ (.prepend (.tree e)) (.ok none) ⟨e :: trees, false⟩
  | extend {trees : List Expr} (es : List Expr) :
    Takes op ⟨trees, false⟩ (.extend (es.map .tree)) (.ok none) ⟨trees ++ es, false⟩
  | refuseAppend {trees : List Expr} {value : Value} (foreign : value.Foreign) :
    Takes op ⟨trees, false⟩ (.append value) (.error (.notConvertible value)) ⟨trees, false⟩
  | refusePrepend {trees : List Expr} {value : Value} (foreign : value.Foreign) :
    Takes op ⟨trees, false⟩ (.prepend value) (.error (.notConvertible value)) ⟨trees, false⟩
  -- the trees before the first value that is none are kept
  | refuseExtend {trees : List Expr} {value : Value} (es : List Expr) (foreign : value.Foreign)
      (rest : List Value) :
    Takes op ⟨trees, false⟩ (.extend (es.map .tree ++ value :: rest))
      (.error (.notConvertible value)) ⟨trees ++ es, false⟩
  | build {trees : List Expr} {e : Expr}
      (published : Published op (trees.flatMap (contribution op)) e) :
    Takes op ⟨trees, false⟩ .build (.ok (some e)) ⟨trees, true⟩
  -- whatever is offered, be it a tree or not
  | late {trees : List Expr} {step : Step} (some : step ≠ .extend []) :
    Takes op ⟨trees, true⟩ step (.error (.misuse .alreadyBuilt)) ⟨trees, true⟩
  | lateNothing {trees : List Expr} :
    Takes op ⟨trees, true⟩ (.extend []) (.ok none) ⟨trees, true⟩

-- The answers to steps taken one after another, and the ledgers on the way.
inductive Course (op : Nary) : Ledger → List Step → List (Answer × Ledger) → Prop
  | nil {ledger : Ledger} : Course op ledger [] []
  | cons {ledger next : Ledger} {step : Step} {answer : Answer} {steps : List Step}
      {course : List (Answer × Ledger)} (takes : Takes op ledger step answer next)
      (later : Course op next steps course) :
    Course op ledger (step :: steps) ((answer, next) :: course)

variable {op : Nary} {ledger next : Ledger} {step : Step} {steps : List Step} {answer : Answer}
  {course : List (Answer × Ledger)} {value : Value} {e : Expr} {es : List Expr}

theorem spliced_eq (e : Expr) : e.spliced op = contribution op e := by
  unfold contribution
  split
  · rename_i own
    obtain ⟨es, rfl⟩ := eq_nary_of_kind own
    exact spliced_self
  · rename_i other
    exact spliced_of_kind_ne other

theorem published_iff : Published op es e ↔ e = op.collect es := by
  constructor
  · intro published
    cases published with
    | identity | alone => rfl
    | node long => exact (Nary.collect_of_two_le long).symm
  · rintro rfl
    match es with
    | [] => exact .identity
    | [e] => exact .alone e
    | _ :: _ :: _ => exact .node (by simp)

theorem foreign_or_tree (value : Value) : value.Foreign ∨ ∃ e, value = .tree e := by
  cases value with
  | tree e => exact .inr ⟨e, rfl⟩
  | _ => exact .inl nofun

-- All values are trees, or there is a first that is none.
theorem trees_before_foreign (values : List Value) : (∃ es : List Expr, values = es.map .tree) ∨
    ∃ (es : List Expr) (value : Value) (rest : List Value),
      value.Foreign ∧ values = es.map .tree ++ value :: rest := by
  induction values with
  | nil => exact .inl ⟨[], rfl⟩
  | cons value values ih =>
    rcases foreign_or_tree value with foreign | ⟨e, rfl⟩
    · exact .inr ⟨[], value, values, foreign, rfl⟩
    · rcases ih with ⟨es, rfl⟩ | ⟨es, other, rest, foreign, rfl⟩
      · exact .inl ⟨e :: es, rfl⟩
      · exact .inr ⟨e :: es, other, rest, foreign, rfl⟩

-- There is a rule for every step.
theorem takes_some (op : Nary) (ledger : Ledger) (step : Step) :
    ∃ answer next, Takes op ledger step answer next := by
  obtain ⟨trees, closed⟩ := ledger
  cases closed with
  | true =>
    by_cases none : step = .extend []
    · subst none
      exact ⟨_, _, .lateNothing⟩
    · exact ⟨_, _, .late none⟩
  | false =>
    cases step with
    | append value =>
      rcases foreign_or_tree value with foreign | ⟨e, rfl⟩
      · exact ⟨_, _, .refuseAppend foreign⟩
      · exact ⟨_, _, .append e⟩
    | prepend value =>
      rcases foreign_or_tree value with foreign | ⟨e, rfl⟩
      · exact ⟨_, _, .refusePrepend foreign⟩
      · exact ⟨_, _, .prepend e⟩
    | extend values =>
      rcases trees_before_foreign values with ⟨es, rfl⟩ | ⟨es, value, rest, foreign, rfl⟩
      · exact ⟨_, _, .extend es⟩
      · exact ⟨_, _, .refuseExtend es foreign rest⟩
    | build => exact ⟨_, _, .build (published_iff.mpr rfl)⟩

theorem course_some (op : Nary) (ledger : Ledger) (steps : List Step) :
    ∃ course, Course op ledger steps course := by
  induction steps generalizing ledger with
  | nil => exact ⟨[], .nil⟩
  | cons step steps ih =>
    obtain ⟨answer, next, takes⟩ := takes_some op ledger step
    obtain ⟨course, later⟩ := ih next
    exact ⟨_, .cons takes later⟩

section Steps

variable {a : Assembly}

theorem offered_foreign (isOpen : a.built = false) (foreign : value.Foreign) :
    a.offered value = .error (.notConvertible value) := by
  unfold offered
  rw [isOpen]
  cases value with
  | tree e => exact absurd rfl (foreign e)
  | _ => rfl

theorem offered_built (built : a.built = true) (value : Value) :
    a.offered value = .error (.misuse .alreadyBuilt) := by
  unfold offered
  rw [built]
  rfl

-- A run of trees is taken whole, whatever follows it.
theorem extend_trees (op : Nary) (held es : List Expr) (values : List Value) :
    (Assembly.mk op held false).extend (es.map .tree ++ values) =
      (Assembly.mk op (held ++ es.flatMap (contribution op)) false).extend values := by
  induction es generalizing held with
  | nil => rw [List.flatMap_nil, List.append_nil]; rfl
  | cons e es ih =>
    rw [List.flatMap_cons, ← spliced_eq, ← List.append_assoc, ← ih]
    rfl

-- A value that is refused is refused wherever it is offered, and changes nothing.
theorem perform_refused {cause : Failure} (refused : a.offered value = .error cause) :
    a.perform (.append value) = (.error cause, a) ∧
      a.perform (.prepend value) = (.error cause, a) ∧
      ∀ rest, a.extend (value :: rest) = (a, some cause) := by
  simp only [perform, append, prepend, extend, refused]
  exact ⟨rfl, rfl, fun _ => rfl⟩

theorem perform_built (built : a.built = true) (some : step ≠ .extend []) :
    a.perform step = (.error (.misuse .alreadyBuilt), a) := by
  cases step with
  | append value => exact (perform_refused (offered_built built value)).1
  | prepend value => exact (perform_refused (offered_built built value)).2.1
  | extend values =>
    cases values with
    | nil => exact absurd rfl some
    | cons value values =>
      rw [perform, (perform_refused (offered_built built value)).2.2]
  | build =>
    simp only [perform, Assembly.build, built]
    rfl

-- A step answers by its rule, and leaves what the rule says.
theorem Takes.perform (takes : Takes op ledger step answer next) :
    (ledger.assembly op).perform step = (answer, next.assembly op) := by
  cases takes with
  | @append trees e =>
    simp only [Ledger.assembly, List.flatMap_append, List.flatMap_singleton, ← spliced_eq e]
    rfl
  | @prepend trees e =>
    simp only [Ledger.assembly, List.flatMap_cons, ← spliced_eq e]
    rfl
  | @extend trees es =>
    have whole := extend_trees op (trees.flatMap (contribution op)) es []
    rw [List.append_nil, ← List.flatMap_append] at whole
    simp only [Ledger.assembly, Assembly.perform, whole]
    rfl
  | refuseAppend foreign => exact (perform_refused (offered_foreign rfl foreign)).1
  | refusePrepend foreign => exact (perform_refused (offered_foreign rfl foreign)).2.1
  | @refuseExtend trees value es foreign rest =>
    have before := extend_trees op (trees.flatMap (contribution op)) es (value :: rest)
    rw [← List.flatMap_append] at before
    simp only [Ledger.assembly, Assembly.perform, before,
      (perform_refused (offered_foreign (a := ⟨op, _, false⟩) rfl foreign)).2.2]
  | build published =>
    obtain rfl := published_iff.mp published
    rfl
  | late some => exact perform_built rfl some
  | lateNothing => rfl

end Steps

theorem Course.run (follows : Course op ledger steps course) :
    (ledger.assembly op).run steps =
      course.map fun (answer, next) => (answer, next.assembly op) := by
  induction follows with
  | nil => rfl
  | cons takes _ ih => simp only [Assembly.run, takes.perform, ih, List.map_cons]

-- Only an open assembly hands out an expression, and is closed by it.
theorem Takes.closes (takes : Takes op ledger step (.ok (some e)) next) :
    ledger.closed = false ∧ next.closed = true ∧ e = op.join next.trees := by
  cases takes with
  | @build trees _ published =>
    have contributed : trees.flatMap (contribution op) = trees.flatMap (·.spliced op) :=
      List.flatMap_congr fun e _ => (spliced_eq e).symm
    refine ⟨rfl, rfl, ?_⟩
    rw [published_iff.mp published, contributed]
    rfl

theorem Course.published (follows : Course op ledger steps course)
    (member : (.ok (some e), next) ∈ course) : e = op.join next.trees := by
  induction follows with
  | nil => cases member
  | cons takes _ ih =>
    cases member with
    | head => exact takes.closes.2.2
    | tail _ later => exact ih later

def publishes : Answer → Bool
  | .ok (some _) => true
  | _ => false

-- How many expressions can still be handed out.
def Ledger.left (ledger : Ledger) : Nat := if ledger.closed then 0 else 1

theorem Takes.left (takes : Takes op ledger step answer next) :
    (if publishes answer then 1 else 0) + next.left = ledger.left := by
  cases takes <;> rfl

theorem Course.countP_publishes_le (follows : Course op ledger steps course) :
    course.countP (publishes ·.1) ≤ ledger.left := by
  induction follows with
  | nil => exact Nat.zero_le _
  | cons takes _ ih =>
    have spent := takes.left
    simp only [List.countP_cons]
    omega

-- What a built assembly answers.
def lateAnswer : Step → Answer
  | .extend [] => .ok none
  | _ => .error (.misuse .alreadyBuilt)

theorem run_built {a : Assembly} (built : a.built = true) :
    a.run steps = steps.map fun step => (lateAnswer step, a) := by
  induction steps with
  | nil => rfl
  | cons step steps ih =>
    have performed : a.perform step = (lateAnswer step, a) := by
      by_cases none : step = .extend []
      · subst none
        rfl
      · rw [perform_built built none]
        unfold lateAnswer
        split
        · exact absurd rfl none
        · rfl
    simp only [run, performed, ih, List.map_cons]

-- A fresh assembly keeps to the ledger: the rules have an answer to every sequence of steps, what
-- they answer is what the assembly does, and what it then holds is what the trees in the ledger
-- contribute. It hands out one expression at most, flat if the trees are; once built it refuses
-- whatever is offered and stays as it is.
structure KeepsLedger (op : Nary) (steps : List Step) : Prop where
  fresh : start op.kind [] = .ok (Ledger.fresh.assembly op)
  total : ∃ course, Course op .fresh steps course
  run : ∀ {course}, Course op .fresh steps course → (empty op).run steps =
    course.map fun (answer, ledger) => (answer, ledger.assembly op)
  once : ((empty op).run steps).countP (publishes ·.1) ≤ 1
  flat : ∀ {course e ledger}, Course op .fresh steps course → (.ok (some e), ledger) ∈ course →
    (∀ t ∈ ledger.trees, t.Flat) → e.Flat
  late : ∀ {a : Assembly}, a.built = true →
    a.run steps = steps.map fun step => (lateAnswer step, a)

theorem run_keeps_ledger (op : Nary) (steps : List Step) : KeepsLedger op steps where
  fresh := rfl
  total := course_some op .fresh steps
  run follows := follows.run
  once := by
    obtain ⟨course, follows⟩ := course_some op .fresh steps
    have ran : (empty op).run steps = _ := follows.run
    rw [ran, List.countP_map]
    exact follows.countP_publishes_le
  flat follows member flat := follows.published member ▸ Nary.join_flat flat
  late := run_built

-- Spliced at both ends, with an extension that stops at a name and a value that is refused for what
-- it is; after the build even such a value is refused for being late.
theorem run_keeps_ledger_of_interleaved :
    let x := symbol "x"
    let y := symbol "y"
    let steps : List Step := [.append (.tree (sum [x, y])),
      .extend [.tree y, .text "z", .tree x], .prepend .nothing, .prepend (.tree (sum [y, one])),
      .build, .append .nothing, .extend [], .build]
    let before : Assembly := ⟨.sum, [x, y, y], false⟩
    let built : Assembly := ⟨.sum, [y, one, x, y, y], true⟩
    (empty .sum).run steps = [(.ok none, ⟨.sum, [x, y], false⟩),
      (.error (.notConvertible (.text "z")), before), (.error (.notConvertible .nothing), before),
      (.ok none, { built with built := false }), (.ok (some (sum [y, one, x, y, y])), built),
      (.error (.misuse .alreadyBuilt), built), (.ok none, built),
      (.error (.misuse .alreadyBuilt), built)] ∧ (sum [y, one, x, y, y]).Flat := by
  intro x y steps before built
  let trees := [sum [y, one], sum [x, y], y]
  have name : (Value.text "z").Foreign := nofun
  have follows : Course .sum .fresh steps [(.ok none, ⟨[sum [x, y]], false⟩),
      (.error (.notConvertible (.text "z")), ⟨[sum [x, y], y], false⟩),
      (.error (.notConvertible .nothing), ⟨[sum [x, y], y], false⟩), (.ok none, ⟨trees, false⟩),
      (.ok (some (sum [y, one, x, y, y])), ⟨trees, true⟩),
      (.error (.misuse .alreadyBuilt), ⟨trees, true⟩), (.ok none, ⟨trees, true⟩),
      (.error (.misuse .alreadyBuilt), ⟨trees, true⟩)] :=
    .cons (.append _) <| .cons (.refuseExtend [y] name [.tree x]) <|
    .cons (.refusePrepend nofun) <| .cons (.prepend _) <| .cons (.build (.node (by decide))) <|
    .cons (.late nofun) <| .cons .lateNothing <| .cons (.late nofun) .nil
  have flat : ∀ t ∈ (Ledger.mk trees true).trees, t.Flat := by decide
  have keeps := run_keeps_ledger .sum steps
  exact ⟨keeps.run follows, keeps.flat follows (by simp) flat⟩

end Assembly

end SymbolicArith
