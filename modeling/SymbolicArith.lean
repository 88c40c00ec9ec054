import SymbolicArith.Render.Outline
import SymbolicArith.Proofs.Expansion.Value
import SymbolicArith.Proofs.Reduction.Combination
import SymbolicArith.Proofs.Reduction.CommonOperands
import SymbolicArith.Proofs.Reduction.Congruence
import SymbolicArith.Proofs.Reduction.Session
import SymbolicArith.Proofs.Reduction.TraceLength
import SymbolicArith.Proofs.Reduction.Weight
import SymbolicArith.Proofs.WellFormed
import SymbolicArith.Proofs.Monomial.Form
import SymbolicArith.Proofs.Monomial.Equality
import SymbolicArith.Proofs.Reduction.Safety
import SymbolicArith.Proofs.Render.Failures
import SymbolicArith.Proofs.Render.Spelling
import SymbolicArith.Proofs.Render.Reading
import SymbolicArith.Proofs.Render.Legible
import SymbolicArith.Proofs.Render.Unambiguous
import SymbolicArith.Proofs.Renaming
import SymbolicArith.Proofs.Expansion.TermCount
import SymbolicArith.Proofs.Render.PrefixForm
import SymbolicArith.Proofs.Render.Outline
import SymbolicArith.Proofs.Expr.Construction
import SymbolicArith.Proofs.Render.Subtraction
