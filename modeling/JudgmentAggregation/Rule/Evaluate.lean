import JudgmentAggregation.Rule.Encode
import JudgmentAggregation.Rule.Select

/-!
# Evaluating rules

The outcomes that a rule selects for a scenario are found by one of two strategies. Brute force
lists all the admissible outcomes and compares them; optimization solves the optimization problem of
the rule.
-/

namespace JudgmentAggregation

namespace Strategy

variable {γ : Type}

/-- The enumerator of the admissible outcomes of a scenario. -/
def admissible (B : Backend γ) (E : BoundEncoder) (strategy : Strategy) (s : Scenario) :
    Run γ Enumerator :=
  match strategy with
  | .bruteForce => Run.ofResult s.admissible
  | .optimization => do (← Run.ofResult s.admissibilityProblem).optimalModels B E

/-- The outcomes that a rule selects, by comparison of all the admissible ones. -/
def compareAll (B : Backend γ) (L : Lister) (r : Rule) (s : Scenario) : Run γ (List Outcome) := do
  Run.record (.comparingOutcomes r)
  let e ← Run.ofResult s.admissible
  let os ← (Outcome.listAll B e).inContext .enumeratingOutcomes
  Run.record (.admissibleFound os.length)
  let selected ← Run.ofResult (s.select L r os)
  Run.record (.outcomesSelected r selected.length)
  return selected

/-- The outcomes that a rule selects, by optimization. -/
def optimize (B : Backend γ) (E : BoundEncoder) (r : Rule) (s : Scenario) :
    Run γ (List Outcome) := do
  Run.record (.optimizing r)
  let p ← (Run.ofResult (s.problem r)).inContext (.encodingRule r)
  Run.record (.objectivesCounted r p.objectives.length)
  let e ← p.optimalModels B E
  let os ← (Outcome.listAll B e).inContext (.listingOptimalModels r)
  let selected := SortedList.ofList os
  Run.record (.outcomesSelected r selected.length)
  return selected

/-- The outcomes that a rule selects, in order and each once. -/
def evaluate (B : Backend γ) (E : BoundEncoder) (L : Lister) (strategy : Strategy) (r : Rule)
    (s : Scenario) : Run γ (List Outcome) :=
  match strategy with
  | .bruteForce => compareAll B L r s
  | .optimization => optimize B E r s

/-- The outcomes that the rule of a name selects. -/
def evaluateByName (B : Backend γ) (E : BoundEncoder) (L : Lister) (strategy : Strategy)
    (name : String) (s : Scenario) : Run γ (List Outcome) := do
  strategy.evaluate B E L (← Run.ofResult (Rule.ofName name)) s

end Strategy

end JudgmentAggregation
