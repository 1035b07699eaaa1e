import JudgmentAggregation.Sat.ClauseLearning.Order
import JudgmentAggregation.Sat.Resolution

/-!
# The state of a search for models

A search decides the values of variables, propagates the consequences and takes decisions back. Here
are the parts of its state and the elementary changes to them.

Literals are numbered so that those of variable `v` are `2 * v` (positive) and `2 * v + 1`. A
function that changes a state is compiled apart from its callers: then no caller holds a part of the
state while it changes, and arrays are changed in place.
-/

namespace JudgmentAggregation

namespace ClauseLearning

/-! ### Literals as numbers -/

/-- The number of a literal. -/
def code (l : Literal Nat) : Nat :=
  2 * l.var + if l.positive then 0 else 1

/-- The literal of a number. -/
def decode (k : Nat) : Literal Nat :=
  ⟨k / 2, k % 2 == 0⟩

/-- The number of the opposite literal. -/
def opposite (k : Nat) : Nat :=
  if k % 2 == 0 then k + 1 else k - 1

/-! ### The parts of a state -/

/-- The state of a search.

* `clauses` are the given and the learned clauses; the first two literals of a clause are watched,
  and `watches` has the clauses that watch a literal. `premises` tells which clause of a derivation
  each is.
* `given` and `learned` count the clauses of the two kinds.
* `values` is 1 at a true literal, 2 at a false one and 0 at an undecided one.
* `levels` and `reasons` tell, for each variable with a value, how many decisions preceded it and
  which clause propagated it.
* `trail` lists the true literals in order, those from `head` on still to be propagated.
* `decisions` has the place of each decision on the trail.
* `occurrences` counts, for each literal, the clauses that it is in.
* `order` is the order of decisions.
* `steps` are the derivations of the last learned clauses, the last one first. -/
structure State where
  clauses : Array (Array Nat)
  premises : Array Resolution.Premise
  given : Nat
  learned : Nat
  watches : Array (Array Nat)
  values : Array Nat
  levels : Array Nat
  reasons : Array (Option Nat)
  trail : Array Nat
  head : Nat
  decisions : Array Nat
  occurrences : Array Nat
  order : Order
  steps : List Resolution.Step

namespace State

/-- The state without variables and clauses. -/
def empty : State where
  clauses := #[]
  premises := #[]
  given := 0
  learned := 0
  watches := #[]
  values := #[]
  levels := #[]
  reasons := #[]
  trail := #[]
  head := 0
  decisions := #[]
  occurrences := #[]
  order := .empty
  steps := []

/-- The number of variables. -/
def size (s : State) : Nat :=
  s.levels.size

/-- Adds the next variable. -/
@[noinline] def addVariable (s : State) : State :=
  { s with
    watches := (s.watches.push #[]).push #[]
    values := (s.values.push 0).push 0
    levels := s.levels.push 0
    reasons := s.reasons.push none
    occurrences := (s.occurrences.push 0).push 0
    order := s.order.addVariable }

/-- Adds `n` variables. -/
def addVariables : (n : Nat) → State → State
  | 0, s => s
  | n + 1, s => addVariables n s.addVariable

/-- 1 at a true literal, 2 at a false one and 0 at an undecided one. -/
def value (s : State) (k : Nat) : Nat :=
  s.values.getD k 0

/-- The number of decisions that preceded the value of a literal. -/
def level (s : State) (k : Nat) : Nat :=
  s.levels.getD (k / 2) 0

/-- The clause that propagated the value of a variable, if one did. -/
def reason (s : State) (v : Nat) : Option Nat :=
  s.reasons.getD v none

/-- The clause of a number. -/
def clause (s : State) (i : Nat) : Array Nat :=
  s.clauses.getD i #[]

/-- The clause of a number as a clause of a derivation. -/
def premise (s : State) (i : Nat) : Resolution.Premise :=
  s.premises.getD i (.given 0)

/-- Makes a literal true. -/
@[noinline] def assign (k : Nat) (reason : Option Nat) (s : State) : State :=
  { s with
    values := (s.values.setIfInBounds k 1).setIfInBounds (opposite k) 2
    levels := s.levels.setIfInBounds (k / 2) s.decisions.size
    reasons := s.reasons.setIfInBounds (k / 2) reason
    trail := s.trail.push k }

/-- Watches a literal in a clause. -/
@[noinline] def watch (k i : Nat) (s : State) : State :=
  { s with watches := s.watches.modify k (·.push i) }

/-- Sets the clauses that watch a literal. -/
@[noinline] def setWatching (k : Nat) (watching : Array Nat) (s : State) : State :=
  { s with watches := s.watches.setIfInBounds k watching }

/-- Exchanges two literals of a clause. -/
@[noinline] def exchange (i j₁ j₂ : Nat) (s : State) : State :=
  { s with clauses := s.clauses.modify i (·.swapIfInBounds j₁ j₂) }

/-- Goes on to the next literal to be propagated. -/
@[noinline] def advance (s : State) : State :=
  { s with head := s.head + 1 }

/-- Counts the literals of a clause. -/
@[noinline] def count (c : List Nat) (s : State) : State :=
  { s with occurrences := c.foldl (fun counts k => counts.modify k (· + 1)) s.occurrences }

/-- Adds a given clause. -/
@[noinline] def addGiven (c : List Nat) (s : State) : State :=
  { s with
    clauses := s.clauses.push c.toArray
    premises := s.premises.push (.given s.given)
    given := s.given + 1 }

/-- Adds a learned clause. -/
@[noinline] def addLearned (c : List Nat) (step : Resolution.Step) (s : State) : State :=
  { s with
    clauses := s.clauses.push c.toArray
    premises := s.premises.push (.derived s.learned)
    learned := s.learned + 1
    steps := step :: s.steps }

/-- Forgets the steps, once they have been replayed. -/
@[noinline] def clearSteps (s : State) : State :=
  { s with steps := [] }

/-- Watches the first two literals of the last clause. -/
def watchLast (c : List Nat) (s : State) : State :=
  match c with
  | k :: m :: _ => (s.watch k (s.clauses.size - 1)).watch m (s.clauses.size - 1)
  | _ => s

/-! ### Decisions -/

/-- The literal of a variable that is in more clauses, the positive one if they are in as many. -/
def prevalent (v : Nat) (s : State) : Nat :=
  if s.occurrences.getD (2 * v) 0 < s.occurrences.getD (2 * v + 1) 0 then 2 * v + 1 else 2 * v

/-- Begins a decision. -/
@[noinline] def openLevel (s : State) : State :=
  { s with decisions := s.decisions.push s.trail.size }

/-- Decides for a literal. -/
def choose (k : Nat) (s : State) : State :=
  s.openLevel.assign k none

/-- Raises the score of a variable. -/
@[noinline] def promote (v : Nat) (s : State) : State :=
  { s with order := s.order.promote v }

/-- Raises what later conflicts are worth. -/
@[noinline] def raiseGain (s : State) : State :=
  { s with order := s.order.raiseGain }

/-- Takes the first variable out of the order. -/
@[noinline] def dropFirst (s : State) : State :=
  { s with order := s.order.dropFirst }

/-- Takes variables out of the order, at most `n`, until one is undecided. -/
def undecided? : (n : Nat) → State → Option Nat × State
  | 0, s => (none, s)
  | n + 1, s =>
    match s.order.heap[0]? with
    | none => (none, s)
    | some v =>
      let s := s.dropFirst
      if s.value (2 * v) == 0 then (some v, s) else undecided? n s

/-- Takes back the last literal of the trail, which is `k`. -/
@[noinline] def unassignLast (k : Nat) (s : State) : State :=
  { s with
    values := (s.values.setIfInBounds k 0).setIfInBounds (opposite k) 0
    trail := s.trail.pop
    order := s.order.insert (k / 2) }

/-- Takes back the last literals of the trail, `n` of them. -/
def unassign : (n : Nat) → State → State
  | 0, s => s
  | n + 1, s =>
    match s.trail.back? with
    | none => s
    | some k => unassign n (s.unassignLast k)

/-- Forgets all the decisions after the first `level`, the trail having been shortened. -/
@[noinline] def close (level : Nat) (s : State) : State :=
  { s with head := s.trail.size, decisions := s.decisions.shrink level }

/-- Takes back all the decisions after the first `level`. -/
def backtrack (level : Nat) (s : State) : State :=
  match s.decisions[level]? with
  | none => s
  | some place => (unassign (s.trail.size - place) s).close level

end State

end ClauseLearning

end JudgmentAggregation
