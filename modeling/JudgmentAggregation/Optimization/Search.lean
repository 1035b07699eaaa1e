import JudgmentAggregation.Bound.Constraint
import JudgmentAggregation.Optimization.Problem
import JudgmentAggregation.Sat.Enumerator

/-!
# Optimal models

The objectives are minimized one after the other. For each, starting from the value in the last
model found, a better value is asked for until there is none: the bound is guarded by a fresh
variable that is assumed in this call and false ever after. As each value is less than the one
before, the first value is fuel enough. Then the best value becomes a bound without guard, so that
the later objectives only see models that are optimal so far. What is left in the end is a solver
whose models are the optimal ones.
-/

namespace JudgmentAggregation

namespace OptimizationProblem

variable {γ : Type}

/-- Adds the lower bounds of a problem. -/
def addConstraints (E : BoundEncoder) : List LowerBound → Store → Run γ Store
  | [], s => return s
  | c :: cs, s => do
    let (ts, i) := s.index.terms c.terms
    let (guard, i) := match c.guard with
      | none => (none, i)
      | some g =>
        let (g, i) := i.literal g
        (some g, i)
    addConstraints E cs (← Store.atLeast E ts c.bound guard { s with index := i })

/-- The sums of an objective on the numbers of their names. -/
def indexSums : List (List (Term String)) → VariableIndex → List (List (Term Nat)) × VariableIndex
  | [], i => ([], i)
  | ts :: sums, i =>
    let (ts, i) := i.terms ts
    let (sums, i) := indexSums sums i
    (ts :: sums, i)

/-- The greatest value of some sums in a model, and of a number. -/
def greatestSum (m : Model) : Nat → List (List (Term Nat)) → Result Nat
  | best, [] => .ok best
  | best, ts :: sums => do
    let n ← Term.count m.valuation ts
    greatestSum m (max best n) sums

/-- Requires all the sums to be at most a bound, where the guard is true. -/
def boundSums (E : BoundEncoder) (bound : Nat) (guard : Option (Literal Nat)) :
    List (List (Term Nat)) → Store → Run γ Store
  | [], s => return s
  | ts :: sums, s => do boundSums E bound guard sums (← Store.atMost E ts bound guard s)

/-- Looks for a model in which the variable `v` is true, and makes `v` false ever after. -/
def solveUnder (B : Backend γ) (i v : Nat) (s : Store) : Run γ (Option Model × Store) := do
  let (answer, solver) ← s.solver.solve B [.pos v]
  let found ← (Run.ofResult answer.model?).inContext (.optimizingObjective i)
  return (found, { s with solver := solver.add [.neg v] })

/-- Looks for a model in which the `i`-th objective is less than `best`. -/
def findBetter (B : Backend γ) (E : BoundEncoder) (i : Nat) (sums : List (List (Term Nat)))
    (best : Nat) (s : Store) : Run γ (Option Model × Store) := do
  let (v, index) := s.index.anonymous
  solveUnder B i v (← boundSums E (best - 1) (some (.pos v)) sums { s with index })

/-- Looks for models in which the `i`-th objective is less than `best`, as long as there are any,
`fuel` times at most. The result is the best value and the last model found. -/
def improve (B : Backend γ) (E : BoundEncoder) (i : Nat) (sums : List (List (Term Nat))) :
    (fuel best : Nat) → Model → Store → Run γ (Nat × Model × Store)
  | 0, best, m, s => return (best, m, s)
  | fuel + 1, best, m, s => do
    if best = 0 then return (best, m, s)
    let (found, s) ← findBetter B E i sums best s
    match found with
    | none => return (best, m, s)
    | some m =>
      let best ← Run.ofResult (greatestSum m 0 sums)
      Run.record (.newBound i best)
      improve B E i sums fuel best m s

/-- Minimizes the objectives from the `i`-th on and fixes their values. -/
def minimize (B : Backend γ) (E : BoundEncoder) :
    (i : Nat) → List Objective → Model → Store → Run γ Store
  | _, [], _, s => return s
  | i, o :: os, m, s => do
    let (sums, index) := indexSums o.sums s.index
    let first ← Run.ofResult (greatestSum m 0 sums)
    Run.record (.firstBound i first)
    let (best, m, s) ← improve B E i sums first first m { s with index }
    Run.record (.optimalValue i best)
    minimize B E (i + 1) os m (← boundSums E best none sums s)

/-- The enumerator of the models of a store that minimize the objectives. It is empty if the store
has no model. -/
def listMinimal (B : Backend γ) (E : BoundEncoder) (projection : List (String × Nat))
    (os : List Objective) (s : Store) : Run γ Enumerator := do
  let (answer, solver) ← s.solver.solve B []
  match ← (Run.ofResult answer.model?).inContext .findingFirstModel with
  | none =>
    Run.record .constraintsUnsatisfiable
    return .ofSolver solver projection
  | some m =>
    let s ← minimize B E 0 os m { s with solver }
    return .ofSolver s.solver projection

/-- The enumerator of the optimal models of a problem on its projection, whose variables are
numbered first. It is empty if nothing satisfies the hard clauses and the lower bounds. -/
def optimalModels (B : Backend γ) (E : BoundEncoder) (p : OptimizationProblem) :
    Run γ Enumerator := do
  let (projection, i) := VariableIndex.empty.insertAll p.projection
  let (F, i) := i.cnf p.hard
  listMinimal B E projection p.objectives
    (← addConstraints E p.constraints ⟨Solver.empty.addAll F, i⟩)

end OptimizationProblem

end JudgmentAggregation
