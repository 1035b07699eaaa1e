import JudgmentAggregation.Cnf.Converter
import JudgmentAggregation.Optimization.Search
import JudgmentAggregation.Outcome.Basic

/-!
# Admissible outcomes

An outcome is **admissible** when it gives the labels the values that their formulas have under some
valuation that satisfies the output constraints. The clauses of a scenario are those of the output
constraints and of the definitions of the labels; the admissible outcomes are their models, seen on
the variables of the labels.
-/

namespace JudgmentAggregation

namespace Scenario

variable {γ : Type}

/-- Converts some formulas, one after the other, with one converter. -/
def convertAll : Converter → List String → List Formula → Result (Cnf String)
  | _, _, [] => .ok []
  | c, vs, f :: fs =>
    match c.convert f vs with
    | .error e => .error (e.inContext (.convertingFormula f))
    | .ok (F, vs, c) =>
      match convertAll c vs fs with
      | .error e => .error e
      | .ok G => .ok (F ++ G)

/-- The clauses that the admissible outcomes are the models of. -/
def admissibilityCnf (s : Scenario) : Result (Cnf String) :=
  convertAll .standard s.allVariables (s.outputs ++ s.agenda.definitions)

/-- The enumerator of the admissible outcomes, straight from the clauses. -/
def admissible (s : Scenario) : Result Enumerator := do
  return .ofCnf (← s.admissibilityCnf) s.agenda.labelNames

/-- The optimization problem without objectives, of which every admissible outcome is an optimal
model. -/
def admissibilityProblem (s : Scenario) : Result OptimizationProblem := do
  return ⟨← s.admissibilityCnf, [], s.agenda.labelNames, []⟩

end Scenario

namespace Outcome

variable {γ : Type}

/-- The first outcomes of an enumerator, at most `n`. -/
def take (B : Backend γ) (n : Nat) (e : Enumerator) : Run γ (List Outcome × Enumerator) := do
  let (ms, e) ← e.take B n
  return (ms.map ofModel, e)

/-- All the outcomes of an enumerator. -/
def listAll (B : Backend γ) (e : Enumerator) : Run γ (List Outcome) := do
  return (← e.toList B).map ofModel

end Outcome

end JudgmentAggregation
