import JudgmentAggregation.Formula.Basic

/-!
# The order of formulas

Formulas are ordered by their outermost connective, atoms first, then negations, conjunctions,
disjunctions and implications; under the same connective they are ordered by their operands,
lists of operands lexicographically, and names by their code points.
-/

namespace JudgmentAggregation

namespace Formula

/-- The rank of the outermost connective. -/
def rank : Formula → Nat
  | .atom _ => 0
  | .not _ => 1
  | .and _ => 2
  | .or _ => 3
  | .implies .. => 4

mutual

/-- The comparison of two formulas. -/
def cmp : Formula → Formula → Ordering
  | .atom a, .atom b => compare a b
  | .not f, .not g => cmp f g
  | .and fs, .and gs => cmpList fs gs
  | .or fs, .or gs => cmpList fs gs
  | .implies f f', .implies g g' =>
    match cmp f g with
    | .eq => cmp f' g'
    | o => o
  | f, g => compare f.rank g.rank

/-- The lexicographic comparison of two lists of formulas. -/
def cmpList : List Formula → List Formula → Ordering
  | [], [] => .eq
  | [], _ :: _ => .lt
  | _ :: _, [] => .gt
  | f :: fs, g :: gs =>
    match cmp f g with
    | .eq => cmpList fs gs
    | o => o

end

instance : Ord Formula := ⟨cmp⟩

end Formula

end JudgmentAggregation
