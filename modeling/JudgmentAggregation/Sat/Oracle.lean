import JudgmentAggregation.Cnf.Converter
import JudgmentAggregation.Sat.Solver
import JudgmentAggregation.Sat.VariableIndex

/-!
# Satisfiability of formulas

Whether some formulas can be true together is decided by converting their normal forms into
clauses, with one converter for all of them, and asking a solver once.
-/

namespace JudgmentAggregation

namespace Oracle

variable {γ : Type}

/-- Adds the clauses of some formulas to a solver. -/
def load (vars : List String) :
    List Formula → Converter → VariableIndex → Solver → Result Solver
  | [], _, _, s => .ok s
  | f :: fs, c, i, s =>
    match c.convert f.toNormal vars with
    | .error e => .error e
    | .ok (F, _, c) =>
      let (F, i) := i.cnf F
      load vars fs c i (s.addAll F)

/-- Whether some formulas are satisfiable together. The given variables are numbered first. -/
def satisfiable (B : Backend γ) (fs : List Formula) (vars : List String) : Run γ Bool := do
  let (_, i) := VariableIndex.empty.insertAll vars
  let s ← Run.ofResult (load vars fs .standard i .empty)
  let (answer, _) ← s.solve B []
  let m ← (Run.ofResult answer.model?).inContext .checkingSatisfiability
  return m.isSome

end Oracle

end JudgmentAggregation
