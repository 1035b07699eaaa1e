import JudgmentAggregation.Outcome.Admissible

/-!
# Rules as optimization problems

For each rule there is an optimization problem whose optimal models, seen on the variables of the
labels, are the outcomes that the rule selects. What a rule maximizes is turned into a quantity to
be minimized: the disagreements instead of the agreements, the excluded voters instead of the
included ones.
-/

namespace JudgmentAggregation

namespace Scenario

/-- The literal that gives a label a value. -/
def labelLiteral (l : Nat) (b : Bool) : Literal String :=
  ⟨Label.variableName l, b⟩

/-- The terms that count the voters who disagree on a label. -/
def disagreementTerms (n l support : Nat) : Result (List (Term String)) := do
  return [⟨labelLiteral l true, ← Count.sub n support⟩, ⟨labelLiteral l false, support⟩]

/-- The total number of disagreements. -/
def disagreements (s : Scenario) : Result Objective := do
  let n ← s.voterCount
  let ts ← s.agenda.labels.mapM fun l => do disagreementTerms n l (← s.supportCount l)
  return .sum ts.flatten

/-- The term, if there is one, that counts a label on which the agreement could be `value` but is
not. -/
def missTerms (n value l support : Nat) : List (Term String) :=
  (if support = value then [⟨labelLiteral l false, 1⟩] else []) ++
    if n - support = value then [⟨labelLiteral l true, 1⟩] else []

/-- For each possible agreement, from the greatest to the least, the number of labels that could
have it and do not. -/
def misses (s : Scenario) : Result (List Objective) := do
  let n ← s.voterCount
  let supports ← s.agenda.labels.mapM fun l => return (l, ← s.supportCount l)
  let values ← supports.mapM fun p => return [p.2, ← Count.sub n p.2]
  return (SortedList.ofList values.flatten).reverse.map fun value =>
    .sum (supports.flatMap fun p => missTerms n value p.1 p.2)

/-- The number of strict majority judgments that are not followed. -/
def unfollowed (s : Scenario) : Result Objective := do
  return .sum ((← s.majorityLiterals).map fun l => ⟨(labelLiteral l.1 l.2).negate, 1⟩)

/-- The distances to all the groups of voters. -/
def distances (s : Scenario) : List (List (Term String)) :=
  s.profile.map fun j => s.agenda.labels.map fun l => ⟨labelLiteral l (!j.accepts l), 1⟩

/-- The groups of voters, the first of which has index `i`, with the variables of their voters. -/
def votersFrom : (i : Nat) → List JudgmentSet → List (JudgmentSet × List String)
  | _, [] => []
  | i, j :: js => (j, (List.range j.multiplicity).map (voterName i)) :: votersFrom (i + 1) js

/-- The variables of the voters who accept, or reject, a label. -/
def votersOn (voters : List (JudgmentSet × List String)) (l : Nat) (b : Bool) : List String :=
  (voters.filter fun g => g.1.accepts l == b).flatMap Prod.snd

/-- If `guard` is true, the included voters among `pro` are at least as many as those among
`con`. -/
def camp (pro con : List String) (guard : Literal String) : LowerBound where
  terms := pro.map (fun v => ⟨.pos v, 1⟩) ++ con.map fun v => ⟨.neg v, 1⟩
  bound := con.length
  guard := some guard

/-- The value of a label is not against the strict majority of the included voters. -/
def majorityBounds (voters : List (JudgmentSet × List String)) (l : Nat) : List LowerBound :=
  let accepting := votersOn voters l true
  let rejecting := votersOn voters l false
  [camp rejecting accepting (labelLiteral l false), camp accepting rejecting (labelLiteral l true)]

/-- The number of voters who are not included. -/
def excluded (voters : List (JudgmentSet × List String)) : Objective :=
  .sum ((voters.flatMap Prod.snd).map fun v => ⟨.neg v, 1⟩)

/-- The optimization problem of a rule. Young's rule has a term for each voter, which takes 40
bytes, and there must be room for the terms of all of them; there is room for their names then. -/
def problem (s : Scenario) (r : Rule) : Result OptimizationProblem := do
  let p ← s.admissibilityProblem
  match r with
  | .kemeny => return { p with objectives := [← s.disagreements] }
  | .leximax => return { p with objectives := ← s.misses }
  | .young =>
    if Count.capacity 40 < voters s.profile then throw .fault
    let voters := votersFrom 0 s.profile
    return { p with
      constraints := s.agenda.labels.flatMap (majorityBounds voters)
      objectives := [excluded voters] }
  | .slater => return { p with objectives := [← s.unfollowed] }
  | .majority =>
    let ls ← s.majorityLiterals
    return { p with hard := p.hard ++ ls.map fun l => [labelLiteral l.1 l.2] }
  | .maxHamming =>
    if s.profile.isEmpty then return p
    return { p with objectives := [.max s.distances] }

end Scenario

end JudgmentAggregation
