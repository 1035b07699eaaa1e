import JudgmentAggregation.Sat.Enumerator
import JudgmentAggregation.Scenario.Basic

/-!
# Outcomes

A collective outcome gives labels truth values. An outcome is the list of its pairs of label and
value in increasing order of labels, so that two outcomes with the same values are equal. Outcomes
are ordered by these lists.
-/

namespace JudgmentAggregation

/-- The truth values of some labels. -/
structure Outcome where
  values : List (Nat × Bool)
  sorted : SortedList.Sorted (values.map Prod.fst)
deriving DecidableEq

namespace Outcome

/-- The outcome of a list of pairs, in which a later pair replaces an earlier one of the same
label. -/
def ofPairs (ps : List (Nat × Bool)) : Outcome :=
  ⟨SortedList.ofPairs ps, SortedList.sorted_ofPairs ps⟩

/-- The outcome of a model on the variables of labels. Other variables do not count. -/
def ofModel (m : NamedModel) : Outcome :=
  ofPairs (m.filterMap fun p => (Label.ofVariable? p.1).map fun l => (l, p.2))

/-- The value of a label, if it has one. -/
def value? (o : Outcome) (l : Nat) : Option Bool :=
  SortedList.get? l o.values

/-- The labels that have the value true. -/
def acceptedLabels (o : Outcome) : List Nat :=
  (o.values.filter Prod.snd).map Prod.fst

/-- The values of the formulas of an agenda. -/
def formulaValues (o : Outcome) (a : Agenda) : List (Formula × Bool) :=
  SortedList.ofPairs (o.values.filterMap fun p => (a.get? p.1).map fun f => (f, p.2))

/-- Whether the outcome gives some labels some values. -/
def agreesWith (o : Outcome) (ls : List (Nat × Bool)) : Bool :=
  ls.all fun l => o.value? l.1 == some l.2

/-- The number of labels of the outcome on which a judgment set differs. -/
def distance (o : Outcome) (j : JudgmentSet) : Nat :=
  o.values.countP fun p => j.accepts p.1 != p.2

/-- The text of an outcome. -/
def display (o : Outcome) : String :=
  "\x7b" ++ ", ".intercalate (o.values.map fun p => toString p.1 ++ ": " ++ toString p.2) ++ "\x7d"

/-- The lexicographic comparison of two lists of labels with values, false before true. -/
def cmpValues : List (Nat × Bool) → List (Nat × Bool) → Ordering
  | [], [] => .eq
  | [], _ :: _ => .lt
  | _ :: _, [] => .gt
  | (l, b) :: ps, (m, c) :: qs =>
    (compare l m).then ((compare b c).then (cmpValues ps qs))

instance : Ord Outcome := ⟨fun o p => cmpValues o.values p.values⟩

end Outcome

end JudgmentAggregation
