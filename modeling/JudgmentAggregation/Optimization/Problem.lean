import JudgmentAggregation.Bound.Term

/-!
# Optimization problems

A problem has hard clauses, lower bounds on weighted sums, a list of objectives to be minimized and
a set of variables of interest, the projection. The objectives are compared lexicographically, the
first one first.
-/

namespace JudgmentAggregation

/-- A lower bound on a weighted sum, which only counts where the guard is true. -/
structure LowerBound where
  terms : List (Term String)
  bound : Nat
  guard : Option (Literal String)

/-- A quantity to be minimized. -/
inductive Objective where
  /-- A weighted sum. -/
  | sum (terms : List (Term String))
  /-- The greatest of some weighted sums, zero if there is none. -/
  | max (sums : List (List (Term String)))

namespace Objective

/-- The weighted sums whose greatest value is the value of an objective. -/
def sums : Objective → List (List (Term String))
  | .sum ts => [ts]
  | .max sums => sums

/-- The value of an objective. -/
def value (A : Valuation String) (o : Objective) : Nat :=
  (o.sums.map (Term.value A)).foldl Nat.max 0

end Objective

/-- Whether a lower bound holds under a valuation. -/
def LowerBound.holds (A : Valuation String) (c : LowerBound) : Bool :=
  !c.guard.all (·.eval A) || decide (c.bound ≤ Term.value A c.terms)

/-- An optimization problem. -/
structure OptimizationProblem where
  hard : Cnf String
  constraints : List LowerBound
  projection : List String
  objectives : List Objective

namespace OptimizationProblem

/-- Whether a valuation satisfies the hard clauses and the lower bounds. -/
def feasible (p : OptimizationProblem) (A : Valuation String) : Bool :=
  p.hard.eval A && p.constraints.all (·.holds A)

/-- The values of the objectives under a valuation. -/
def values (p : OptimizationProblem) (A : Valuation String) : List Nat :=
  p.objectives.map (Objective.value A)

end OptimizationProblem

end JudgmentAggregation
