import SymbolicArith.Expr.Form

-- Offered values: whatever a caller may hand to the construction of expressions. Only trees, real
-- numbers and non-empty names become expressions; the rest is refused, and the refusal shows the
-- value and the name of its type.
namespace SymbolicArith

inductive Value where
  | tree (e : Expr)
  | whole (n : Int)
  | ratio (q : Rat)
  | real (x : Float)
  | complex (re im : Float)
  | text (s : String)
  | truth (b : Bool)
  | nothing
  | list (items : List Value)
  | tuple (items : List Value)
  | table (entries : List (Value × Value))

namespace Value

instance : Inhabited Value := ⟨.nothing⟩

def typeName : Value → String
  | .tree _ => "Node"
  | .whole _ => "int"
  | .ratio _ => "Fraction"
  | .real _ => "float"
  | .complex _ _ => "complex"
  | .text _ => "str"
  | .truth _ => "bool"
  | .nothing => "NoneType"
  | .list _ => "list"
  | .tuple _ => "tuple"
  | .table _ => "dict"

-- Trees are compared by structure; a tree is never the same as another kind of value.
def sameTree : Value → Value → Bool
  | .tree x, .tree y => x.same y
  | _, _ => false

-- The parts of a complex number drop the `.0` of a whole float.
def partLayout : Shortest.Layout := { Literal.floatLayout with wholeSuffix := "" }

def complexForm (re im : Float) : String :=
  let imaginary := partLayout.text im
  if re.toBits = 0 then imaginary ++ "j"
  else
    let sign := if imaginary.startsWith "-" then "" else "+"
    "(" ++ partLayout.text re ++ sign ++ imaginary ++ "j)"

-- A tuple of one item keeps a comma.
def tupleForm : List String → String
  | [item] => "(" ++ item ++ ",)"
  | items => "(" ++ ", ".intercalate items ++ ")"

mutual

-- The value in constructor form.
def form : Value → String
  | .tree e => e.form
  | .whole n => toString n
  | .ratio q => Literal.ratioForm q
  | .real x => Literal.floatLayout.text x
  | .complex re im => complexForm re im
  | .text s => Quoted.encode s
  | .truth b => if b then "True" else "False"
  | .nothing => "None"
  | .list items => "[" ++ ", ".intercalate (forms items) ++ "]"
  | .tuple items => tupleForm (forms items)
  | .table entries => "\x7b" ++ ", ".intercalate (entryForms entries) ++ "\x7d"

def forms : List Value → List String
  | [] => []
  | v :: vs => v.form :: forms vs

def entryForms : List (Value × Value) → List String
  | [] => []
  | (key, value) :: rest => (key.form ++ ": " ++ value.form) :: entryForms rest

end

mutual

-- Whether the numbers in the constructor form are written under a limit on their digits.
def fits (digits : Option Nat) : Value → Bool
  | .tree e => e.fits digits
  | .whole n => Literal.fits digits (.whole n)
  | .ratio q => Literal.fits digits (.ratio q)
  | .real _ | .complex _ _ | .text _ | .truth _ | .nothing => true
  | .list items | .tuple items => allFit digits items
  | .table entries => entriesFit digits entries

def allFit (digits : Option Nat) : List Value → Bool
  | [] => true
  | v :: vs => v.fits digits && allFit digits vs

def entriesFit (digits : Option Nat) : List (Value × Value) → Bool
  | [] => true
  | (key, value) :: rest => key.fits digits && value.fits digits && entriesFit digits rest

end

-- The items of a sequence: the characters of a text, the keys of a table.
def items? : Value → Option (List Value)
  | .list items | .tuple items => some items
  | .text s => some (s.toList.map fun c => .text (String.singleton c))
  | .table entries => some (entries.map Prod.fst)
  | _ => none

-- The real part of a number, and its imaginary part.
def number? : Value → Option (Literal × Float)
  | .whole n => some (.whole n, 0)
  | .ratio q => some (.ratio q, 0)
  | .real x => some (.float x, 0)
  | .complex re im => some (.float re, im)
  | .truth b => some (.whole (if b then 1 else 0), 0)
  | _ => none

mutual

-- Whether two keys of a table are one key: numbers by value across their types, truth values
-- counting as 0 and 1, and all else by structure.
def sameKey : Value → Value → Bool
  | .tree a, .tree b => a.same b
  | .text a, .text b => a == b
  | .nothing, .nothing => true
  | .tuple xs, .tuple ys => sameKeys xs ys
  | x, y =>
    match x.number?, y.number? with
    | some (re, im), some (re', im') => re.equals re' && im == im'
    | _, _ => false

def sameKeys : List Value → List Value → Bool
  | [], [] => true
  | x :: xs, y :: ys => sameKey x y && sameKeys xs ys
  | _, _ => false

end

mutual

-- Lists and tables cannot be keys, nor a tuple that holds one.
def canBeKey : Value → Bool
  | .list _ | .table _ => false
  | .tuple items => allCanBeKeys items
  | _ => true

def allCanBeKeys : List Value → Bool
  | [] => true
  | v :: vs => canBeKey v && allCanBeKeys vs

end

-- A key given again keeps its place and its first spelling, and takes the new value.
def putEntry (key value : Value) : List (Value × Value) → List (Value × Value)
  | [] => [(key, value)]
  | (known, old) :: rest =>
    if sameKey known key then (known, value) :: rest else (known, old) :: putEntry key value rest

-- The table of the entries in order; none if a key cannot be one.
def table? (entries : List (Value × Value)) : Option Value :=
  if entries.all (·.1.canBeKey) then
    some (.table (entries.foldl (fun table (key, value) => putEntry key value table) []))
  else none

end Value

end SymbolicArith
