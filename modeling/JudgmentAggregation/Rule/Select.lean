import JudgmentAggregation.Outcome.Basic
import JudgmentAggregation.Rule.Lister

/-!
# Selecting outcomes by comparison

Given a list of outcomes, each rule selects those that are best by its standard. An outcome agrees
with a voter on a label when it accepts the label as the voter does; a label that an outcome leaves
open counts as rejected. The selected outcomes are listed in order, each once.
-/

namespace JudgmentAggregation

namespace Scenario

/-! ### Scores -/

/-- The number of voters who agree with an outcome on a label. -/
def agreement (s : Scenario) (o : Outcome) (l : Nat) : Result Nat := do
  let support ← s.supportCount l
  if o.value? l = some true then return support
  Count.sub (← s.voterCount) support

/-- The agreements on all the labels. -/
def agreements (s : Scenario) (o : Outcome) : Result (List Nat) :=
  s.agenda.labels.mapM (s.agreement o)

/-- The total number of agreements. -/
def totalAgreement (s : Scenario) (o : Outcome) : Result Nat := do
  Count.sum (← s.agreements o)

/-- Puts a number into a descending list. -/
def insertDescending (n : Nat) : List Nat → List Nat
  | [] => [n]
  | m :: ms => if m ≤ n then n :: m :: ms else m :: insertDescending n ms

/-- The numbers of a list in descending order. -/
def descending (ns : List Nat) : List Nat :=
  ns.foldr insertDescending []

/-- The agreements in descending order. -/
def descendingAgreements (s : Scenario) (o : Outcome) : Result (List Nat) := do
  return descending (← s.agreements o)

/-- The distance to the farthest voter. -/
def farthestDistance (s : Scenario) (o : Outcome) : Nat :=
  (s.profile.map o.distance).foldl Nat.max 0

/-! ### The best outcomes -/

/-- The lexicographic comparison of two lists of numbers. -/
def cmpNumbers : List Nat → List Nat → Ordering
  | [], [] => .eq
  | [], _ :: _ => .lt
  | _ :: _, [] => .gt
  | m :: ms, n :: ns => (compare m n).then (cmpNumbers ms ns)

/-- The greatest of some keys and one more. -/
def greatestKey {κ : Type} (cmp : κ → κ → Ordering) (k : κ) (ks : List κ) : κ :=
  ks.foldl (fun best k => if cmp best k = .lt then k else best) k

/-- The outcomes whose keys are greatest. -/
def selectGreatest {κ : Type} (cmp : κ → κ → Ordering) (key : Outcome → Result κ)
    (os : List Outcome) : Result (List Outcome) := do
  let keys ← os.mapM key
  match keys with
  | [] => return []
  | k :: ks =>
    let best := greatestKey cmp k ks
    return ((os.zip keys).filter fun p => cmp p.2 best = .eq).map Prod.fst

/-- The outcomes that agree with some judgments. -/
def agreeing (ls : List (Nat × Bool)) (os : List Outcome) : List Outcome :=
  os.filter fun o => o.agreesWith ls

/-- The choices of `n` of some judgments. None and all of them are chosen without a lister. -/
def choices (L : Lister) (ls : List (Nat × Bool)) (n : Nat) :
    Result (List (List (Nat × Bool))) :=
  if n = 0 then .ok [[]]
  else if ls.length ≤ n then .ok [ls]
  else L.choose ls n

/-- The outcomes that agree with a choice of `n` judgments or else, if there are none, with a choice
of as many as possible. -/
def followMost (choose : Nat → Result (List (List (Nat × Bool)))) (os : List Outcome) :
    (n : Nat) → Result (List Outcome)
  | 0 => return os
  | n + 1 => do
    match (← choose (n + 1)).flatMap fun sub => agreeing sub os with
    | [] => followMost choose os n
    | selected => return selected

/-! ### Majorities of some of the voters

How many voters of a group are included is a count of 8 bytes, and there must be room for a list of
all the possible counts.
-/

/-- All the ways to include some voters of each group: for each group, how many. -/
def inclusions (L : Lister) (js : List JudgmentSet) : List (List Nat) :=
  if js.isEmpty then [[]]
  else L.product (js.map fun j => List.range (j.multiplicity + 1))

/-- The strict majority judgments of the included voters, of whom there are `n`. -/
def includedMajority (s : Scenario) (included : List Nat) (n : Nat) :
    Result (List (Nat × Bool)) := do
  let sides ← s.agenda.labels.mapM fun l => do
    let support ← Count.sum
      (((s.profile.zip included).filter fun p => p.1.accepts l).map Prod.snd)
    let _ ← Count.mul 2 support
    return (strictSide support n).map fun b => (l, b)
  return sides.filterMap id

/-- Goes through some inclusions, given the greatest number of included voters so far whose majority
some outcomes follow, and these outcomes. -/
def followIncluded (s : Scenario) (os : List Outcome) :
    List (List Nat) → Option (Nat × List Outcome) → Result (Option (Nat × List Outcome))
  | [], best => return best
  | included :: rest, best => do
    let n ← Count.sum included
    if best.any fun b => n < b.1 then s.followIncluded os rest best
    else
      let matching := agreeing (← s.includedMajority included n) os
      if matching.isEmpty then s.followIncluded os rest best
      else
        match best with
        | some (m, selected) =>
          if m = n then s.followIncluded os rest (some (n, selected ++ matching))
          else s.followIncluded os rest (some (n, matching))
        | none => s.followIncluded os rest (some (n, matching))

/-! ### The rules -/

/-- The best outcomes of a list by a rule, in any order and possibly repeated. -/
def best (s : Scenario) (L : Lister) (r : Rule) (os : List Outcome) : Result (List Outcome) :=
  match r with
  | .kemeny => selectGreatest compare s.totalAgreement os
  | .leximax => selectGreatest cmpNumbers s.descendingAgreements os
  | .maxHamming =>
    selectGreatest (fun m n => compare n m) (fun o => .ok (s.farthestDistance o)) os
  | .slater => do
    let ls ← s.majorityLiterals
    followMost (choices L ls) os ls.length
  | .majority => do
    return agreeing (← s.majorityLiterals) os
  | .young => do
    if s.profile.any fun j => Count.capacity 8 ≤ j.multiplicity then throw .fault
    let best ← s.followIncluded os (inclusions L s.profile) none
    return (best.map Prod.snd).getD []

/-- The outcomes that a rule selects from a list, in order and each once. -/
def select (s : Scenario) (L : Lister) (r : Rule) (os : List Outcome) : Result (List Outcome) := do
  return SortedList.ofList (← s.best L r os)

end Scenario

end JudgmentAggregation
