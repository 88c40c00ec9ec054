import Mathlib.Data.Rat.Lemmas
import SymbolicArith.Number.Literal

-- Exact literals by the numbers they stand for. Comparison, arithmetic and text go by the number
-- alone, and what comes out of arithmetic is the literal that the number is made into. A literal
-- in canonical form is no whole ratio: it is the one that its number is made into.
namespace SymbolicArith.Literal

variable {x y : Literal} {p q : ℚ}

@[simp] theorem rational?_whole (n : ℤ) : (whole n).rational? = some (n : ℚ) := rfl
@[simp] theorem rational?_ratio (q : ℚ) : (ratio q).rational? = some q := rfl
@[simp] theorem rational?_float (x : Float) : (float x).rational? = none := rfl

@[simp] theorem rational?_exact (q : ℚ) : (exact q).rational? = some q := by
  unfold exact
  split
  · rename_i whole
    rw [rational?_whole, Rat.coe_int_num_of_den_eq_one whole]
  · rfl

@[simp] theorem integer?_whole (n : ℤ) : (whole n).integer? = some n := rfl

@[simp] theorem exact_intCast (n : ℤ) : exact n = .whole n := rfl

theorem integral?_intCast (n : ℤ) : integral? n = some n := rfl

theorem integral?_eq_some {n : ℤ} : integral? q = some n ↔ q = n := by
  constructor
  · intro whole
    unfold integral? at whole
    split at whole
    · rename_i integer
      rw [← Option.some.inj whole, Rat.coe_int_num_of_den_eq_one integer]
    · cases whole
  · rintro rfl
    exact integral?_intCast n

theorem integer?_eq (isX : x.rational? = some q) : x.integer? = integral? q := by
  cases x with
  | whole n =>
    cases isX
    rfl
  | ratio p =>
    cases isX
    rfl
  | float => cases isX

theorem equals_eq (isX : x.rational? = some p) (isY : y.rational? = some q) :
    x.equals y = decide (p = q) := by
  cases x with
  | float => cases isX
  | whole | ratio =>
    cases y with
    | float => cases isY
    | whole | ratio => simp_all [equals]

theorem equalsInt_eq (isX : x.rational? = some q) (n : ℤ) : x.equalsInt n = decide (q = n) :=
  equals_eq isX (rational?_whole n)

theorem isNegative_eq (isX : x.rational? = some q) : x.isNegative = decide (q < 0) := by
  cases x with
  | whole n =>
    cases isX
    have sign : n < 0 ↔ (n : ℚ) < 0 := by rw [← Rat.intCast_zero, Rat.intCast_lt_intCast]
    exact decide_eq_decide.mpr sign
  | ratio p =>
    cases isX
    rfl
  | float => cases isX

theorem add?_eq (isX : x.rational? = some p) (isY : y.rational? = some q) :
    x.add? y = some (exact (p + q)) := by
  simp [add?, isX, isY]

theorem mul?_eq (isX : x.rational? = some p) (isY : y.rational? = some q) :
    x.mul? y = some (exact (p * q)) := by
  simp [mul?, isX, isY]

theorem text_exact (q : ℚ) : (exact q).text =
    if q.den = 1 then toString q.num else toString q.num ++ "/" ++ toString q.den := by
  unfold exact
  split
  · rfl
  · rename_i fraction
    exact if_neg fraction

theorem text_eq (isX : x.rational? = some q) : x.text = (exact q).text := by
  cases x with
  | whole n =>
    cases isX
    rw [exact_intCast]
  | ratio p =>
    cases isX
    rw [text_exact]
    rfl
  | float => cases isX

-- The literal that the number is made into; a float stays as it is.
def remade : Literal → Literal
  | .ratio q => exact q
  | x => x

theorem remade_eq (isX : x.rational? = some q) : x.remade = exact q := by
  cases x with
  | whole n =>
    cases isX
    rfl
  | ratio p =>
    cases isX
    rfl
  | float => cases isX

@[simp] theorem remade_exact (q : ℚ) : (exact q).remade = exact q :=
  remade_eq (rational?_exact q)

@[simp] theorem rational?_remade (x : Literal) : x.remade.rational? = x.rational? := by
  cases x with
  | whole | float => rfl
  | ratio q => exact rational?_exact q

-- Only whole ratios are made into another literal.
theorem remade_cases (x : Literal) :
    x.remade = x ∨ ∃ n : ℤ, x = ratio n ∧ x.remade = whole n := by
  cases x with
  | whole | float => exact .inl rfl
  | ratio q =>
    by_cases whole : q.den = 1
    · obtain ⟨n, rfl⟩ : ∃ n : ℤ, q = n := ⟨q.num, (Rat.coe_int_num_of_den_eq_one whole).symm⟩
      exact .inr ⟨n, rfl, rfl⟩
    · exact .inl (if_neg whole)

theorem equals_remade (x y : Literal) : x.remade.equals y.remade = x.equals y := by
  have left : ∀ y : Literal, x.remade.equals y = x.equals y := by
    intro y
    rcases x.remade_cases with same | ⟨m, rfl, whole⟩
    · rw [same]
    · rw [whole]
      cases y <;> rfl
  rw [left]
  rcases y.remade_cases with same | ⟨n, rfl, whole⟩
  · rw [same]
  · rw [whole]
    cases x <;> rfl

theorem integer?_remade (x : Literal) : x.remade.integer? = x.integer? := by
  rcases x.remade_cases with same | ⟨n, rfl, whole⟩
  · rw [same]
  · rw [whole]
    rfl

theorem toFloat?_remade (x : Literal) : x.remade.toFloat? = x.toFloat? := by
  rcases x.remade_cases with same | ⟨n, rfl, whole⟩
  · rw [same]
  · rw [whole]
    rfl

theorem text_remade (x : Literal) : x.remade.text = x.text := by
  rcases x.remade_cases with same | ⟨n, rfl, whole⟩
  · rw [same]
  · rw [whole]
    rfl

def Canonical (x : Literal) : Prop := x.remade = x

instance : DecidablePred Canonical := fun x => inferInstanceAs (Decidable (x.remade = x))

theorem canonical_whole (n : ℤ) : (whole n).Canonical := rfl
theorem canonical_float (x : Float) : (float x).Canonical := rfl
theorem canonical_exact (q : ℚ) : (exact q).Canonical := remade_exact q

theorem canonical_remade (x : Literal) : x.remade.Canonical := by
  cases x with
  | whole | float => rfl
  | ratio q => exact canonical_exact q

theorem Canonical.eq_exact (canonical : x.Canonical) (isX : x.rational? = some q) : x = exact q :=
  canonical.symm.trans (remade_eq isX)

theorem canonical_ratio : (ratio q).Canonical ↔ q.den ≠ 1 := by
  unfold Canonical remade exact
  by_cases whole : q.den = 1 <;> simp [whole]

-- Whatever comes out of arithmetic is in canonical form.
theorem add?_canonical {z : Literal} (sum : x.add? y = some z) : z.Canonical := by
  unfold add? at sum
  split at sum
  · cases sum
    exact canonical_exact _
  · obtain ⟨a, _, sum⟩ := Option.bind_eq_some_iff.mp sum
    obtain ⟨b, _, sum⟩ := Option.bind_eq_some_iff.mp sum
    cases sum
    rfl

theorem mul?_canonical {z : Literal} (product : x.mul? y = some z) : z.Canonical := by
  unfold mul? at product
  split at product
  · cases product
    exact canonical_exact _
  · obtain ⟨a, _, product⟩ := Option.bind_eq_some_iff.mp product
    obtain ⟨b, _, product⟩ := Option.bind_eq_some_iff.mp product
    cases product
    rfl

theorem foldPower?_canonical {z : Literal} (power : foldPower? limit x y = some z) :
    z.Canonical := by
  unfold foldPower? at power
  split at power
  · cases power
  · split at power
    · cases power
    · split at power
      · cases power
      · cases x with
        | whole | ratio =>
          cases power
          exact canonical_exact _
        | float =>
          obtain ⟨raised, _, rfl⟩ := Option.map_eq_some_iff.mp power
          rfl

theorem add?_remade (x y : Literal) : x.remade.add? y.remade = (x.add? y).map remade := by
  have same : x.remade.add? y.remade = x.add? y := by
    simp [add?, toFloat?_remade]
  rw [same]
  cases sum : x.add? y with
  | none => rfl
  | some z => exact congrArg some (add?_canonical sum).symm

theorem mul?_remade (x y : Literal) : x.remade.mul? y.remade = (x.mul? y).map remade := by
  have same : x.remade.mul? y.remade = x.mul? y := by
    simp [mul?, toFloat?_remade]
  rw [same]
  cases product : x.mul? y with
  | none => rfl
  | some z => exact congrArg some (mul?_canonical product).symm

theorem foldPower?_of_remade (limit : Nat) (x y : Literal) :
    foldPower? limit x.remade y.remade = foldPower? limit x y := by
  rw [foldPower?, integer?_remade]
  rcases x.remade_cases with same | ⟨n, rfl, whole⟩
  · rw [same]
    rfl
  · rw [whole]
    rfl

theorem foldPower?_remade (limit : Nat) (x y : Literal) :
    foldPower? limit x.remade y.remade = (foldPower? limit x y).map remade := by
  rw [foldPower?_of_remade]
  cases power : foldPower? limit x y with
  | none => rfl
  | some z => exact congrArg some (foldPower?_canonical power).symm

theorem canonical_neg (x : Literal) : x.neg.Canonical := by
  cases x with
  | whole | float => rfl
  | ratio q => exact canonical_exact (-q)

end SymbolicArith.Literal
