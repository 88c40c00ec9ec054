import Mathlib.Data.List.Chain
import SymbolicArith.Proofs.Number.Literal

-- The tokens of infix text. A text determines its tokens as long as no number in it directly
-- follows another: the next token is then told by the characters that are left.
namespace SymbolicArith

inductive Token where
  -- not negative: the sign of a number is a token of its own
  | number (q : ℚ)
  | letter (c : Char)
  | opening
  | closing
  | caret
  | times
  | plus
  | minus
  -- a minus sign without spaces
  | sign
  deriving DecidableEq

namespace Token

def spelling : Token → List Char
  | number q => (Literal.exact q).text.toList
  | letter c => [c]
  | opening => ['(']
  | closing => [')']
  | caret => ['^']
  | times => [' ', '*', ' ']
  | plus => [' ', '+', ' ']
  | minus => [' ', '-', ' ']
  | sign => ['-']

def spelled (tokens : List Token) : List Char := tokens.flatMap spelling

def isNumber : Token → Bool
  | number _ => true
  | _ => false

-- Marks are always spelled alike.
def isMark : Token → Bool
  | number _ | letter _ => false
  | _ => true

-- A character that begins no other token and does not go on with a number.
def IsLetter (c : Char) : Prop := c.isDigit = false ∧ c ∉ ['/', '(', ')', '^', ' ', '-']

instance (c : Char) : Decidable (IsLetter c) := inferInstanceAs (Decidable (_ ∧ _))

def Plain : Token → Prop
  | number q => 0 ≤ q
  | letter c => IsLetter c
  | _ => True

-- Of two neighbours at most one is a number.
def Apart (one other : Token) : Prop := ¬ (one.isNumber ∧ other.isNumber)

structure Clear (ts : List Token) : Prop where
  plain : ∀ t ∈ ts, t.Plain
  apart : ts.IsChain Apart

def marks : List Token := [opening, closing, caret, times, plus, minus, sign]

def leadingMark? (cs : List Char) : Option Token := marks.find? (·.spelling.isPrefixOf cs)

def leadingNatural (cs : List Char) : Nat := Nat.ofDigitChars 10 (cs.takeWhile Char.isDigit) 0

def behindNatural (cs : List Char) : List Char := cs.dropWhile Char.isDigit

-- The number that the text begins with, and what is behind it.
def leadingNumber (cs : List Char) : ℚ × List Char :=
  match behindNatural cs with
  | '/' :: rest => (leadingNatural cs / leadingNatural rest, behindNatural rest)
  | rest => (leadingNatural cs, rest)

def scan (cs : List Char) : Option (Token × List Char) :=
  match leadingMark? cs with
  | some mark => some (mark, cs.drop mark.spelling.length)
  | none =>
    match cs with
    | [] => none
    | c :: rest =>
      if c.isDigit then
        let (q, behind) := leadingNumber cs
        some (number q, behind)
      else some (letter c, rest)

variable {cs rest : List Char} {c : Char} {n : Nat} {q : ℚ} {t : Token} {ts us : List Token}

-- Digits and the bar of a fraction go on with a number.
def Stops (cs : List Char) : Prop := ∀ c ∈ cs.head?, c.isDigit = false ∧ c ≠ '/'

theorem digits_isDigit : ∀ c ∈ Nat.toDigits 10 n, c.isDigit = true :=
  fun _ => Nat.isDigit_of_mem_toDigits (by decide) (by decide)

theorem leadingNatural_digits (stops : ∀ c ∈ cs.head?, c.isDigit = false) :
    leadingNatural (Nat.toDigits 10 n ++ cs) = n ∧
      behindNatural (Nat.toDigits 10 n ++ cs) = cs := by
  have none : cs.takeWhile Char.isDigit = [] ∧ cs.dropWhile Char.isDigit = cs := by
    cases cs with
    | nil => exact ⟨rfl, rfl⟩
    | cons c cs => simp [stops c rfl]
  rw [leadingNatural, behindNatural, List.takeWhile_append_of_pos digits_isDigit,
    List.dropWhile_append_of_pos digits_isDigit, none.1, none.2, List.append_nil,
    Nat.ofDigitChars_ten_toDigits]
  exact ⟨rfl, rfl⟩

theorem toString_num (nonneg : 0 ≤ q) :
    toString q.num = String.ofList (Nat.toDigits 10 q.num.toNat) := by
  rw [← Nat.toString_eq_ofList_toDigits]
  conv_lhs => rw [← Int.toNat_of_nonneg (Rat.num_nonneg.mpr nonneg)]
  rfl

theorem spelling_whole (nonneg : 0 ≤ q) (whole : q.den = 1) :
    (number q).spelling = Nat.toDigits 10 q.num.toNat := by
  simp only [spelling, Literal.text_exact, whole, if_true, toString_num nonneg,
    String.toList_ofList]

theorem spelling_fraction (nonneg : 0 ≤ q) (fraction : q.den ≠ 1) : (number q).spelling =
    Nat.toDigits 10 q.num.toNat ++ '/' :: Nat.toDigits 10 q.den := by
  simp only [spelling, Literal.text_exact, fraction, if_false, toString_num nonneg,
    String.toList_append, String.toList_ofList, Nat.toString_eq_ofList_toDigits, List.append_assoc]
  rfl

theorem leadingNumber_spelling (nonneg : 0 ≤ q) (stops : Stops cs) :
    leadingNumber ((number q).spelling ++ cs) = (q, cs) := by
  have num : ((q.num.toNat : ℕ) : ℚ) = q.num := by
    exact_mod_cast congrArg (Int.cast : ℤ → ℚ) (Int.toNat_of_nonneg (Rat.num_nonneg.mpr nonneg))
  have digitless : ∀ c ∈ cs.head?, c.isDigit = false := fun c head => (stops c head).1
  unfold leadingNumber
  by_cases whole : q.den = 1
  · obtain ⟨natural, behind⟩ := leadingNatural_digits (n := q.num.toNat) digitless
    rw [spelling_whole nonneg whole, natural, behind, num, (Rat.den_eq_one_iff q).mp whole]
    split
    · exact absurd rfl (stops _ rfl).2
    · rfl
  · have bar : ∀ c ∈ ('/' :: (Nat.toDigits 10 q.den ++ cs)).head?, c.isDigit = false := by simp
    obtain ⟨natural, behind⟩ := leadingNatural_digits (n := q.num.toNat) bar
    obtain ⟨natural', behind'⟩ := leadingNatural_digits (n := q.den) digitless
    rw [spelling_fraction nonneg whole, List.append_assoc, List.cons_append, natural, behind]
    simp only [natural', behind', num, Rat.num_div_den]

-- What is left when a token is taken off does not go on with a number, unless it begins with one.
theorem stops_spelled (plain : ∀ t ∈ ts, t.Plain)
    (numberless : ∀ t ∈ ts.head?, t.isNumber = false) : Stops (spelled ts) := by
  intro c head
  cases ts with
  | nil => cases head
  | cons t ts =>
    have here := plain t (by simp)
    have other := numberless t rfl
    cases t with
    | number => cases other
    | letter =>
      cases head
      exact ⟨here.1, fun bar => here.2 (by simp [bar])⟩
    | opening | closing | caret | times | plus | minus | sign =>
      cases head
      decide

theorem leadingMark?_eq_none (other : c ∉ ['(', ')', '^', ' ', '-']) :
    leadingMark? (c :: rest) = none := by
  have differs : ∀ d ∈ ['(', ')', '^', ' ', '-'], (d == c) = false := by
    intro d member
    exact beq_eq_false_iff_ne.mpr fun same => other (same ▸ member)
  simp [leadingMark?, marks, spelling, List.isPrefixOf, differs]

theorem scan_mark (mark : t.isMark = true) : scan (t.spelling ++ cs) = some (t, cs) := by
  have found : leadingMark? (t.spelling ++ cs) = some t := by
    cases t with
    | number | letter => cases mark
    | opening | closing | caret | times | plus | minus | sign => rfl
  simp [scan, found]

theorem scan_number (nonneg : 0 ≤ q) (stops : Stops cs) :
    scan ((number q).spelling ++ cs) = some (number q, cs) := by
  obtain ⟨c, rest, spelt, digit⟩ :
      ∃ c rest, (number q).spelling = c :: rest ∧ c.isDigit = true := by
    have digits := digits_isDigit (n := q.num.toNat)
    have some : Nat.toDigits 10 q.num.toNat ≠ [] := Nat.toDigits_ne_nil
    obtain ⟨c, rest, some⟩ := List.exists_cons_of_ne_nil some
    rw [some] at digits
    by_cases whole : q.den = 1
    · exact ⟨c, rest, by rw [spelling_whole nonneg whole, some], digits c (by simp)⟩
    · exact ⟨c, _, by rw [spelling_fraction nonneg whole, some]; rfl, digits c (by simp)⟩
  have noMark : leadingMark? (c :: (rest ++ cs)) = none := by
    apply leadingMark?_eq_none
    intro mark
    simp only [List.mem_cons, List.not_mem_nil, or_false] at mark
    rcases mark with rfl | rfl | rfl | rfl | rfl <;> cases digit
  have number := leadingNumber_spelling nonneg stops
  rw [spelt, List.cons_append] at number ⊢
  simp only [scan, noMark, digit, if_true, number]

theorem scan_letter (letter : IsLetter c) : scan (c :: cs) = some (Token.letter c, cs) := by
  have noMark : leadingMark? (c :: cs) = none :=
    leadingMark?_eq_none fun mark => letter.2 (List.mem_cons_of_mem _ mark)
  simp [scan, noMark, letter.1]

theorem Clear.of_cons (clear : Clear (t :: ts)) : Clear ts :=
  ⟨fun other member => clear.plain other (List.mem_cons_of_mem t member), clear.apart.of_cons⟩

theorem Clear.scan (clear : Clear (t :: ts)) :
    Token.scan (spelled (t :: ts)) = some (t, spelled ts) := by
  have here := clear.plain t (by simp)
  rw [spelled, List.flatMap_cons]
  cases t with
  | opening | closing | caret | times | plus | minus | sign => exact scan_mark rfl
  | letter c => exact scan_letter here
  | number q =>
    refine scan_number here (stops_spelled clear.of_cons.plain ?_)
    intro other head
    have neighbours := (List.isChain_cons.mp clear.apart).1 other head
    simpa [Apart, isNumber] using neighbours

-- No other tokens spell the same text.
theorem Clear.eq_of_spelled_eq {ts' : List Token} (clear : Clear ts) (clear' : Clear ts')
    (same : spelled ts = spelled ts') : ts = ts' := by
  induction ts generalizing ts' with
  | nil =>
    cases ts' with
    | nil => rfl
    | cons t' ts' =>
      have scanned := clear'.scan
      rw [← same] at scanned
      cases scanned
  | cons t ts ih =>
    have scanned := clear.scan
    rw [same] at scanned
    cases ts' with
    | nil => cases scanned
    | cons t' ts' =>
      obtain ⟨rfl, rest⟩ := Prod.mk.inj (Option.some.inj (clear'.scan.symm.trans scanned))
      rw [ih clear.of_cons clear'.of_cons rest.symm]

theorem clear_nil : Clear [] := ⟨by simp, .nil⟩

theorem Clear.append (left : Clear ts) (right : Clear us)
    (apart : ∀ t ∈ ts.getLast?, ∀ u ∈ us.head?, Apart t u) : Clear (ts ++ us) := by
  refine ⟨?_, List.isChain_append.mpr ⟨left.apart, right.apart, apart⟩⟩
  intro t member
  rcases List.mem_append.mp member with ofLeft | ofRight
  · exact left.plain t ofLeft
  · exact right.plain t ofRight

theorem clear_singleton (plain : t.Plain) : Clear [t] := ⟨by simpa using plain, .singleton t⟩

theorem plain_of_mark (mark : t.isMark = true) : t.Plain ∧ t.isNumber = false := by
  cases t with
  | number | letter => cases mark
  | opening | closing | caret | times | plus | minus | sign => exact ⟨trivial, rfl⟩

-- A mark separates what is before it from what is behind it.
theorem Clear.mark_cons (clear : Clear ts) (mark : t.isMark = true) : Clear (t :: ts) := by
  obtain ⟨plain, other⟩ := plain_of_mark mark
  refine ⟨by simpa [plain] using clear.plain, List.isChain_cons.mpr ⟨?_, clear.apart⟩⟩
  simp [Apart, other]

theorem Clear.append_mark (left : Clear ts) (mark : t.isMark = true) (right : Clear us) :
    Clear (ts ++ t :: us) := by
  refine left.append (right.mark_cons mark) ?_
  rintro _ _ _ ⟨⟩
  simp [Apart, (plain_of_mark mark).2]

end Token

end SymbolicArith
