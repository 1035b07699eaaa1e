import JudgmentAggregation.Sat.ClauseLearning.Analyze
import JudgmentAggregation.Sat.ClauseLearning.Propagate
import JudgmentAggregation.Sat.Exhaustive

/-!
# The search for a model

The search takes in clauses and goes through decisions and conflicts until all variables have
values, or until it is clear that the clauses and some assumptions are not true together. The
assumptions are the first decisions. The state that is left serves for further searches, with more
clauses and other assumptions.
-/

namespace JudgmentAggregation

namespace ClauseLearning

namespace State

/-! ### Taking in clauses -/

/-- Takes in a clause before any decision. The result holds its number if it is false already. -/
def load (c : List Nat) (s : State) : Option Nat × State :=
  let (falsified, others) := c.partition fun k => s.value k == 2
  let s := ((s.addGiven (others ++ falsified)).count c).watchLast others
  match others with
  | [] => (some (s.clauses.size - 1), s)
  | [k] => (none, if s.value k == 0 then s.assign k (some (s.clauses.size - 1)) else s)
  | _ => (none, s)

/-- Takes in some clauses before any decision. The result holds the number of the first one that is
false already. -/
def loadAll : List (List Nat) → State → Option Nat × State
  | [], s => (none, s)
  | c :: cs, s =>
    match s.load c with
    | (some i, s) => (some i, s)
    | (none, s) => loadAll cs s

/-- Takes in a clause that is false after some decisions, `k` and `m` being its literals of the
greatest levels, and learns from it. -/
def contradict (k m : Nat) (rest : List Nat) (s : State) : State :=
  let s := (s.addGiven (k :: m :: rest)).watchLast (k :: m :: rest)
  if s.level m < s.level k then
    let s := s.backtrack (s.level m)
    s.assign k (some (s.clauses.size - 1))
  else
    let s := s.backtrack (s.level k)
    s.learn (s.clauses.size - 1)

/-- Takes in the clauses that are new. A single one that is false after some decisions is learned
from; otherwise all decisions are taken back. The result holds the number of a clause that is false
before any decision, if one is met. -/
def enter (cs : List (List Nat)) (s : State) : Option Nat × State :=
  match cs with
  | [] => (none, s)
  | [c] =>
    match s.latestFirst c with
    | [] => (s.backtrack 0).load c
    | k :: rest =>
      match s.latestFirst rest with
      | [] => (s.backtrack 0).load c
      | m :: rest =>
        if 0 < s.level m && c.all fun k => s.value k == 2 then (none, s.contradict k m rest)
        else (s.backtrack 0).load c
  | cs => (s.backtrack 0).loadAll cs

end State

/-! ### Searching -/

/-- The values of the variables as a model. -/
def State.model (s : State) : Model :=
  ⟨(Array.range s.size).map fun v => some (s.value (2 * v) == 1)⟩

/-- What a search finds: a model, or that there is none, with a derivation among the steps of the
state. -/
inductive Finding where
  | model (m : Model)
  | refutation
  | nothing

/-- Searches on, through at most `fuel` decisions and conflicts. After some conflicts, the search
starts again with what it has learned; `runs` counts the starts, and `left` the conflicts until the
next one. -/
def searchFrom (assumptions : Array Nat) : (fuel runs left : Nat) → State → Finding × State
  | 0, _, _, s => (.nothing, s)
  | fuel + 1, runs, left, s =>
    match s.propagate (s.size + 1) with
    | (some i, s) =>
      if s.decisions.isEmpty then (.refutation, s.conclude i s.size)
      else
        let s := s.learn i
        match left with
        | 0 => searchFrom assumptions fuel (runs + 1) (100 + 10 * runs) (s.backtrack 0)
        | left + 1 => searchFrom assumptions fuel runs left s
    | (none, s) =>
      match assumptions[s.decisions.size]? with
      | some k =>
        if s.value k == 0 then searchFrom assumptions fuel runs left (s.choose k)
        else if s.value k == 1 then searchFrom assumptions fuel runs left s.openLevel
        else match s.reason (k / 2) with
          | some i => (.refutation, s.conclude i (k / 2))
          | none => (.nothing, s)
      | none =>
        match s.undecided? (s.size + 1) with
        | (none, s) => (.model s.model, s)
        | (some v, s) => searchFrom assumptions fuel runs left (s.choose (s.prevalent v))

/-- Searches for a model of the clauses of a state and some new ones, which comes up to some
assumptions. -/
def search (fuel : Nat) (new : Cnf Nat) (assumptions : List (Literal Nat)) (s : State) :
    Finding × State :=
  let size := max (Query.boundOf new.flatten) (Query.boundOf assumptions)
  let s := s.addVariables (size - s.size)
  let s := if assumptions.isEmpty then s else s.backtrack 0
  match s.enter (new.map (·.map code)) with
  | (some i, s) => (.refutation, s.conclude i s.size)
  | (none, s) => searchFrom (assumptions.map code).toArray fuel 1 100 s

end ClauseLearning

end JudgmentAggregation
