import Mathlib.Data.List.Forall2
import SymbolicArith.Reduction.Memo

-- Chained computations: what their result says about the parts, when they have a result, and how
-- one that was cut short is extended by one that was not.
namespace SymbolicArith.Outcome

@[simp] theorem pure_eq (result : α) : (pure result : Outcome α) = .done result := rfl
@[simp] theorem ofOutcome_eq (outcome : Outcome α) :
    ofOutcome (m := Outcome) outcome = outcome := rfl
@[simp] theorem remembering_eq (config : Config) (e : Expr) (compute : Outcome Expr) :
    remembering config e compute = compute := rfl

@[simp] theorem evaluator_ofExcept (result : Except Failure α) :
    Evaluator.ofExcept (m := Outcome) result = ofExcept result := rfl

@[simp] theorem ofExcept_eq_done {result : Except Failure α} :
    ofExcept result = .done a ↔ result = .ok a := by
  cases result <;> simp [ofExcept]

@[simp] theorem bind_eq_done {first : Outcome α} {next : α → Outcome β} :
    first >>= next = .done b ↔ ∃ a, first = .done a ∧ next a = .done b := by
  cases first <;> simp

theorem map_done (change : α → β) (result : α) :
    change <$> (done result : Outcome α) = done (change result) := rfl

@[simp] theorem map_eq_done {first : Outcome α} {change : α → β} :
    change <$> first = .done b ↔ ∃ a, first = .done a ∧ change a = b := by
  simp [← bind_pure_comp]

-- A change of the results goes through a chain, if it goes through its parts.
theorem bind_carried {first : Outcome α} {first' : Outcome α'} {next : α → Outcome β}
    {next' : α' → Outcome β'} {change : α → α'} {change' : β → β'} (here : first' = change <$> first)
    (rest : ∀ a, next' (change a) = change' <$> next a) :
    first' >>= next' = change' <$> (first >>= next) := by
  subst here
  cases first with
  | done a => exact rest a
  | failed | unfinished => rfl

theorem bind_kept {first : Outcome α} {next : α → Outcome β} {next' : α → Outcome β'}
    {change : β → β'} (rest : ∀ a, next' a = change <$> next a) :
    first >>= next' = change <$> (first >>= next) :=
  bind_carried (id_map first).symm rest

theorem mapM_carried {compute : α → Outcome β} {compute' : α' → Outcome β'} {change : α → α'}
    {change' : β → β'} {items : List α}
    (each : ∀ a ∈ items, compute' (change a) = change' <$> compute a) :
    (items.map change).mapM compute' = List.map change' <$> items.mapM compute := by
  induction items with
  | nil => rfl
  | cons item rest ih =>
    rw [List.map_cons, List.mapM_cons, List.mapM_cons]
    refine bind_carried (each item (by simp)) fun _ => ?_
    exact bind_carried (ih fun other member => each other (by simp [member])) fun _ => rfl

theorem mapM_eq_done {compute : α → Outcome β} {items : List α} {results : List β} :
    items.mapM compute = .done results ↔
      List.Forall₂ (fun item result => compute item = .done result) items results := by
  induction items generalizing results with
  | nil => simp [eq_comm]
  | cons item rest ih =>
    simp only [List.mapM_cons, bind_eq_done, ih, pure_eq, done.injEq, List.forall₂_cons_left_iff]
    constructor
    · rintro ⟨first, ran, others, all, rfl⟩
      exact ⟨first, others, ran, all, rfl⟩
    · rintro ⟨first, others, ran, all, rfl⟩
      exact ⟨first, ran, others, all, rfl⟩

@[simp] theorem except_bind_eq_ok {first : Except Failure α} {next : α → Except Failure β} :
    first >>= next = .ok b ↔ ∃ a, first = .ok a ∧ next a = .ok b := by
  cases first <;> simp [bind, Except.bind]

theorem ofExcept_mapM {compute : α → Except Failure β} {items : List α} :
    ofExcept (items.mapM compute) = items.mapM fun item => ofExcept (compute item) := by
  induction items with
  | nil => rfl
  | cons item rest ih =>
    rw [List.mapM_cons, List.mapM_cons, ← ih]
    cases compute item with
    | error => rfl
    | ok => cases rest.mapM compute <;> rfl

theorem except_mapM_eq_ok {β : Type} {compute : α → Except Failure β} {items : List α}
    {results : List β} : items.mapM compute = .ok results ↔
      List.Forall₂ (fun item result => compute item = .ok result) items results := by
  rw [← ofExcept_eq_done, ofExcept_mapM, mapM_eq_done]
  simp only [ofExcept_eq_done]

-- Only the results that the first part can have matter to the rest.
theorem bind_congr_done {first : Outcome α} {next next' : α → Outcome β}
    (same : ∀ a, first = .done a → next a = next' a) : first >>= next = first >>= next' := by
  cases first with
  | done a => exact same a rfl
  | failed | unfinished => rfl

def Finishes (outcome : Outcome α) : Prop := ∃ result, outcome = .done result

theorem Finishes.done (result : α) : Finishes (.done result) := ⟨result, rfl⟩

theorem Finishes.bind {first : Outcome α} {next : α → Outcome β} (finishes : first.Finishes)
    (rest : ∀ a, first = .done a → (next a).Finishes) : (first >>= next).Finishes := by
  obtain ⟨a, ran⟩ := finishes
  rw [ran]
  exact rest a ran

-- No failure: a result, or nothing because the computation was cut short.
def Unfailing (outcome : Outcome α) : Prop := ∀ cause, outcome ≠ .failed cause

theorem Unfailing.of_map {outcome : Outcome α} {change : α → β}
    (unfailing : (change <$> outcome).Unfailing) : outcome.Unfailing := by
  rintro cause rfl
  exact unfailing cause rfl

-- A property that every result has, and that chaining keeps.
structure Chained (holds : {α : Type} → Outcome α → Prop) : Prop where
  done : ∀ {α : Type} (result : α), holds (.done result)
  bind : ∀ {α β : Type} {first : Outcome α} {next : α → Outcome β}, holds first →
    (∀ a, first = .done a → holds (next a)) → holds (first >>= next)

theorem finishes_chained : Chained Finishes := ⟨.done, .bind⟩

theorem unfailing_chained : Chained Unfailing where
  done _ := nofun
  bind {_ _ first _} unfailing rest := by
    cases first with
    | done a => exact rest a rfl
    | failed cause => exact absurd rfl (unfailing cause)
    | unfinished => exact nofun

theorem Chained.mapM {holds : {α : Type} → Outcome α → Prop} {compute : α → Outcome β}
    {items : List α} (chained : Chained holds) (each : ∀ item ∈ items, holds (compute item)) :
    holds (items.mapM compute) := by
  induction items with
  | nil => exact chained.done []
  | cons item rest ih =>
    rw [List.mapM_cons]
    apply chained.bind (each item (by simp))
    intro _ _
    apply chained.bind (ih fun other member => each other (by simp [member]))
    intro _ _
    exact chained.done _

-- Two questions that are answered, and one with yes exactly if the other is.
theorem Finishes.same_answer {one other : Outcome Bool} (first : one.Finishes)
    (second : other.Finishes) (same : one = .done true ↔ other = .done true) :
    ∃ answer, one = .done answer ∧ other = .done answer := by
  obtain ⟨a, rfl⟩ := first
  obtain ⟨b, rfl⟩ := second
  simp only [Outcome.done.injEq, ← Bool.eq_iff_iff] at same
  exact ⟨a, rfl, by rw [same]⟩

-- The later outcome is the earlier one, unless that was cut short.
def ExtendedBy (earlier later : Outcome α) : Prop := earlier = .unfinished ∨ earlier = later

namespace ExtendedBy

theorem refl (outcome : Outcome α) : ExtendedBy outcome outcome := .inr rfl
theorem unfinished (later : Outcome α) : ExtendedBy .unfinished later := .inl rfl

theorem trans {a b c : Outcome α} (left : ExtendedBy a b) (right : ExtendedBy b c) :
    ExtendedBy a c := by
  rcases left with cut | same
  · exact .inl cut
  · exact same ▸ right

theorem bind {earlier later : Outcome α} {next next' : α → Outcome β}
    (first : ExtendedBy earlier later) (rest : ∀ a, ExtendedBy (next a) (next' a)) :
    ExtendedBy (earlier >>= next) (later >>= next') := by
  rcases first with cut | same
  · exact .inl (by rw [cut]; rfl)
  · subst same
    cases earlier with
    | done a => exact rest a
    | failed cause => exact .refl _
    | unfinished => exact .refl _

theorem mapM {compute compute' : α → Outcome β} (each : ∀ a, ExtendedBy (compute a) (compute' a))
    (items : List α) : ExtendedBy (items.mapM compute) (items.mapM compute') := by
  induction items with
  | nil => exact .refl _
  | cons item rest ih =>
    simp only [List.mapM_cons]
    exact (each item).bind fun _ => ih.bind fun _ => .refl _

theorem eq_done {earlier later : Outcome α} (extended : ExtendedBy earlier later)
    (ran : earlier = .done result) : later = .done result := by
  rcases extended with cut | same
  · rw [cut] at ran
    cases ran
  · rw [← same, ran]

theorem eq_of_finishes {earlier later : Outcome α} (extended : ExtendedBy earlier later)
    (finishes : earlier.Finishes) (ran : later = .done result) : earlier = .done result := by
  obtain ⟨answer, early⟩ := finishes
  have late := extended.eq_done early
  rw [ran] at late
  rw [early, late]

end ExtendedBy

theorem Unfailing.of_extended {earlier later : Outcome α} (unfailing : later.Unfailing)
    (extended : ExtendedBy earlier later) : earlier.Unfailing := by
  rcases extended with rfl | rfl
  · exact nofun
  · exact unfailing

-- Outcomes at all depths, none of which is taken back deeper down.
def Grows (chain : Nat → Outcome α) : Prop :=
  ∀ {depth deeper}, depth ≤ deeper → (chain depth).ExtendedBy (chain deeper)

def Ends (chain : Nat → Outcome α) : Prop := ∃ depth, (chain depth).Finishes

namespace Ends

theorem of_eq_done {chain : Nat → Outcome α} (depth : Nat) (ran : chain depth = .done result) :
    Ends chain := ⟨depth, result, ran⟩

theorem done (result : α) : Ends fun _ => .done result := of_eq_done 0 rfl

theorem of_succ {chain : Nat → Outcome α} (ends : Ends fun depth => chain (depth + 1)) :
    Ends chain := by
  obtain ⟨depth, finishes⟩ := ends
  exact ⟨depth + 1, finishes⟩

theorem bind {first : Nat → Outcome α} {next : Nat → α → Outcome β} (ends : Ends first)
    (grows : Grows first) (growsNext : ∀ a, Grows (next · a))
    (rest : ∀ depth a, first depth = .done a → Ends (next · a)) :
    Ends fun depth => first depth >>= next depth := by
  obtain ⟨depth, a, ran⟩ := ends
  obtain ⟨depth', b, ran'⟩ := rest depth a ran
  have ofFirst := (grows (Nat.le_max_left depth depth')).eq_done ran
  have ofNext := (growsNext a (Nat.le_max_right depth depth')).eq_done ran'
  exact of_eq_done (max depth depth') (bind_eq_done.mpr ⟨a, ofFirst, ofNext⟩)

theorem mapM {compute : Nat → α → Outcome β} {items : List α} (grows : ∀ a, Grows (compute · a))
    (each : ∀ item ∈ items, Ends (compute · item)) :
    Ends fun depth => items.mapM (compute depth) := by
  induction items with
  | nil => exact done []
  | cons item rest ih =>
    simp only [List.mapM_cons]
    have later : Ends fun depth => rest.mapM (compute depth) :=
      ih fun other member => each other (by simp [member])
    apply (each item (by simp)).bind (grows item)
    · exact fun _ _ _ le => (ExtendedBy.mapM (fun a => grows a le) rest).bind fun _ => .refl _
    · intro _ _ _
      exact later.bind (fun le => .mapM (fun a => grows a le) rest) (fun _ _ _ _ => .refl _)
        fun _ _ _ => done _

-- From some depth on there is one answer.
theorem answer {chain : Nat → Outcome α} (ends : Ends chain) (grows : Grows chain) :
    ∃ result bound, ∀ depth, bound ≤ depth → chain depth = .done result := by
  obtain ⟨bound, result, ran⟩ := ends
  exact ⟨result, bound, fun _ le => (grows le).eq_done ran⟩

end Ends

end SymbolicArith.Outcome
