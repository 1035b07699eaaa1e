import JudgmentAggregation.Count
import JudgmentAggregation.Sat.Backend
import JudgmentAggregation.Sat.VariableIndex

/-!
# Weighted sums of literals

The value of a weighted sum under a valuation is the sum of the weights of its true literals.
-/

namespace JudgmentAggregation

/-- A literal with a weight. -/
structure Term (α : Type) where
  literal : Literal α
  weight : Nat
deriving DecidableEq

namespace Term

variable {α : Type}

/-- The weights of the true literals of a sum. -/
def trueWeights (A : Valuation α) (ts : List (Term α)) : List Nat :=
  (ts.filter fun t => t.literal.eval A).map weight

/-- The value of a weighted sum. -/
def value (A : Valuation α) (ts : List (Term α)) : Nat :=
  Count.total (trueWeights A ts)

/-- The value of a weighted sum, as a count. -/
def count (A : Valuation α) (ts : List (Term α)) : Result Nat :=
  Count.sum (trueWeights A ts)

/-- The sum of all the weights. -/
def total (ts : List (Term α)) : Nat :=
  Count.total (ts.map weight)

/-- The term on the opposite literal. -/
def negate (t : Term α) : Term α :=
  { t with literal := t.literal.negate }

theorem value_cons (A : Valuation α) (t : Term α) (ts : List (Term α)) :
    value A (t :: ts) = (if t.literal.eval A then t.weight else 0) + value A ts := by
  cases h : t.literal.eval A <;> simp [value, trueWeights, h, Count.total]

end Term

namespace VariableIndex

/-- The sum on the numbers of its names. -/
def terms : List (Term String) → VariableIndex → List (Term Nat) × VariableIndex
  | [], i => ([], i)
  | t :: ts, i =>
    let (l, i) := i.literal t.literal
    let (ts, i) := terms ts i
    (⟨l, t.weight⟩ :: ts, i)

end VariableIndex

end JudgmentAggregation
