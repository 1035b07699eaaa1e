import JudgmentAggregation.Formula.Basic

/-!
# Negation normal form

A formula is in **negation normal form** when it has no implication and negates atoms only.
`Formula.normal` pushes a polarity from the root to the atoms: `normal true f` has the meaning of
`f` and `normal false f` that of its negation. An implication is read as the disjunction of its
negated premise and its conclusion, the two De Morgan laws exchange conjunctions and disjunctions,
and two negations cancel.
-/

namespace JudgmentAggregation

namespace Formula

mutual

/-- Whether a formula is in negation normal form. -/
def isNormal : Formula → Bool
  | .atom _ => true
  | .not (.atom _) => true
  | .not _ => false
  | .and fs => allNormal fs
  | .or fs => allNormal fs
  | .implies .. => false

/-- Whether all the formulas are in negation normal form. -/
def allNormal : List Formula → Bool
  | [] => true
  | f :: fs => f.isNormal && allNormal fs

end

mutual

/-- The negation normal form of a formula (`true`) or of its negation (`false`). -/
def normal : Bool → Formula → Formula
  | true, .atom v => .atom v
  | false, .atom v => .not (.atom v)
  | b, .not f => f.normal (!b)
  | true, .and fs => .and (normalList true fs)
  | false, .and fs => .or (normalList false fs)
  | true, .or fs => .or (normalList true fs)
  | false, .or fs => .and (normalList false fs)
  | true, .implies f g => .or [f.normal false, g.normal true]
  | false, .implies f g => .and [f.normal true, g.normal false]

/-- The normal forms of some formulas, all with the same polarity. -/
def normalList : Bool → List Formula → List Formula
  | _, [] => []
  | b, f :: fs => f.normal b :: normalList b fs

end

/-- The negation normal form of a formula. -/
def toNormal (f : Formula) : Formula :=
  f.normal true

/-- The negation normal form of the negation of a formula. -/
def negateNormal (f : Formula) : Formula :=
  f.normal false

end Formula

end JudgmentAggregation
