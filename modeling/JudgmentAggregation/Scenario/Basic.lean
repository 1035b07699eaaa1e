import JudgmentAggregation.Formula.NormalForm
import JudgmentAggregation.Formula.Order
import JudgmentAggregation.Scenario.Label

/-!
# Scenarios

A scenario of judgment aggregation has an **agenda** of formulas, which the voters accept or reject,
a **profile** that lists groups of voters with the same judgments, constraints that every voter
respects (the input constraints) and constraints that the collective outcome respects (the output
constraints), all over declared variables.
-/

namespace JudgmentAggregation

/-- The formulas to be judged. The first one has label 1. -/
structure Agenda where
  formulas : List Formula
deriving DecidableEq

namespace Agenda

/-- The number of formulas. -/
def size (a : Agenda) : Nat :=
  a.formulas.length

/-- The agenda with one more formula, whose label is its new size. -/
def push (f : Formula) (a : Agenda) : Agenda :=
  ⟨a.formulas ++ [f]⟩

/-- The formula of a label, if there is one. -/
def get? (a : Agenda) : (label : Nat) → Option Formula
  | 0 => none
  | i + 1 => a.formulas[i]?

/-- The label of a formula, if it is in the agenda. -/
def labelOf? (a : Agenda) (f : Formula) : Option Nat :=
  (a.formulas.idxOf? f).map (· + 1)

/-- The labels. -/
def labels (a : Agenda) : List Nat :=
  List.range' 1 a.size

/-- The formulas with their labels. -/
def entries (a : Agenda) : List (Nat × Formula) :=
  a.labels.zip a.formulas

/-- The formulas that make the variable of a label equivalent to the formula: the label implies the
formula, and the formula implies the label. -/
def definition (l : Nat) (f : Formula) : List Formula :=
  [.or [.not (.atom (Label.variableName l)), f], .or [f.negateNormal, .atom (Label.variableName l)]]

/-- The definitions of all the labels. -/
def definitions (a : Agenda) : List Formula :=
  a.entries.flatMap fun p => definition p.1 p.2

/-- The set of the variables of the labels. -/
def labelNames (a : Agenda) : List String :=
  SortedList.ofList (a.labels.map Label.variableName)

end Agenda

/-- A group of voters who accept the same formulas of the agenda and reject the others. -/
structure JudgmentSet where
  multiplicity : Nat
  accepted : List Formula
  labels : List Nat
deriving DecidableEq

/-- Whether the formula of a label is accepted. -/
def JudgmentSet.accepts (j : JudgmentSet) (l : Nat) : Bool :=
  j.labels.contains l

/-- A judgment aggregation problem. -/
structure Scenario where
  declared : List String
  agenda : Agenda
  inputs : List Formula
  outputs : List Formula
  profile : List JudgmentSet
deriving DecidableEq

namespace Scenario

/-- The scenario with nothing in it. -/
def empty : Scenario := ⟨[], ⟨[]⟩, [], [], []⟩

/-- The declared variables together with those of the labels. -/
def allVariables (s : Scenario) : List String :=
  SortedList.insertAll (s.agenda.labels.map Label.variableName) s.declared

/-! ### Counting voters -/

/-- The number of voters of some groups. -/
def voters (profile : List JudgmentSet) : Nat :=
  Count.total (profile.map JudgmentSet.multiplicity)

/-- The groups that accept a label. -/
def supporters (s : Scenario) (l : Nat) : List JudgmentSet :=
  s.profile.filter fun j => j.accepts l

/-- The number of voters, as a count. -/
def voterCount (s : Scenario) : Result Nat :=
  Count.sum (s.profile.map JudgmentSet.multiplicity)

/-- The number of voters who accept a label, as a count. -/
def supportCount (s : Scenario) (l : Nat) : Result Nat :=
  Count.sum ((s.supporters l).map JudgmentSet.multiplicity)

/-- The side of a vote that has more than half of `n` votes, if there is one: `true` for the
supporters, of whom there are `support`. -/
def strictSide (support n : Nat) : Option Bool :=
  if n < 2 * support then some true
  else if 2 * support < n then some false
  else none

/-- The judgment of more than half of the voters on a label, if there is one. -/
def strictMajority (s : Scenario) (l : Nat) : Result (Option Bool) := do
  let support ← s.supportCount l
  let _ ← Count.mul 2 support
  let n ← s.voterCount
  return strictSide support n

/-- The judgments of strict majorities, label by label. -/
def majorityLiterals (s : Scenario) : Result (List (Nat × Bool)) := do
  let sides ← s.agenda.labels.mapM fun l => return (← s.strictMajority l).map fun b => (l, b)
  return sides.filterMap id

/-! ### What a judgment set says -/

/-- The formulas that say which labels a judgment set accepts. -/
def judgments (s : Scenario) (j : JudgmentSet) : List Formula :=
  s.agenda.labels.map fun l =>
    if j.accepts l then .atom (Label.variableName l) else .not (.atom (Label.variableName l))

/-- The formulas that must be true together for a judgment set to be consistent. -/
def judgmentFormulas (s : Scenario) (j : JudgmentSet) : List Formula :=
  s.inputs ++ s.agenda.definitions ++ s.judgments j

end Scenario

end JudgmentAggregation
