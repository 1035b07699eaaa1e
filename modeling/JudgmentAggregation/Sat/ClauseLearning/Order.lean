import JudgmentAggregation.Cnf.Basic

/-!
# The order of decisions

A search decides the variables in the order of their scores, which they gain in conflicts; of equal
ones the least variable comes first. The variables that may be undecided are kept in a binary heap.
-/

namespace JudgmentAggregation

namespace ClauseLearning

/-- The order in which variables are decided.

* `scores` are the scores of the variables.
* `heap` has the variables that may be undecided. Those at places `2 * i + 1` and `2 * i + 2` come
  after that at place `i`.
* `places` has one more than the place of a variable in the heap, and 0 if it is not there.
* `gain` is what a variable gains in a conflict. -/
structure Order where
  scores : Array Nat
  heap : Array Nat
  places : Array Nat
  gain : Nat

namespace Order

/-- The order of no variables. -/
def empty : Order := ⟨#[], #[], #[], 1000⟩

/-! ### Moving in the heap -/

/-- Whether the variable at one place comes before that at another. -/
def before (o : Order) (i j : Nat) : Bool :=
  let v := o.heap.getD i 0
  let w := o.heap.getD j 0
  let a := o.scores.getD v 0
  let b := o.scores.getD w 0
  b < a || (a == b && v < w)

/-- Exchanges the variables at two places. -/
@[noinline] def exchange (i j : Nat) (o : Order) : Order :=
  let v := o.heap.getD i 0
  let w := o.heap.getD j 0
  { o with
    heap := (o.heap.setIfInBounds i w).setIfInBounds j v
    places := (o.places.setIfInBounds v (j + 1)).setIfInBounds w (i + 1) }

/-- Moves the variable at place `i` to the front as far as it should be, in at most `n` steps. -/
def rise : (n i : Nat) → Order → Order
  | 0, _, o => o
  | n + 1, i, o =>
    let up := (i - 1) / 2
    if i != 0 && o.before i up then rise n up (o.exchange i up) else o

/-- Moves the variable at place `i` to the back as far as it should be, in at most `n` steps. -/
def sink : (n i : Nat) → Order → Order
  | 0, _, o => o
  | n + 1, i, o =>
    let left := 2 * i + 1
    let right := 2 * i + 2
    if left < o.heap.size then
      let down := if right < o.heap.size && o.before right left then right else left
      if o.before down i then sink n down (o.exchange i down) else o
    else o

/-- A number of steps that is enough for any heap. -/
def depth : Nat := 64

/-! ### Taking variables in and out -/

/-- Puts a variable at the end of the heap. -/
@[noinline] def push (v : Nat) (o : Order) : Order :=
  let places := o.places.setIfInBounds v (o.heap.size + 1)
  { o with heap := o.heap.push v, places }

/-- Takes the last variable out of the heap. -/
@[noinline] def dropLast (o : Order) : Order :=
  let v := o.heap.getD (o.heap.size - 1) 0
  { o with heap := o.heap.pop, places := o.places.setIfInBounds v 0 }

/-- Notes that a variable may be undecided. -/
def insert (v : Nat) (o : Order) : Order :=
  if o.places.getD v 0 == 0 then
    let o := o.push v
    rise depth (o.heap.size - 1) o
  else o

/-- Takes the first variable out of the heap. -/
def dropFirst (o : Order) : Order :=
  sink depth 0 (o.exchange 0 (o.heap.size - 1)).dropLast

/-- Makes room for the next variable. -/
@[noinline] def extend (o : Order) : Order :=
  { o with scores := o.scores.push 0, places := o.places.push 0 }

/-- Adds the next variable. -/
def addVariable (o : Order) : Order :=
  let v := o.scores.size
  o.extend.insert v

/-! ### Scores -/

/-- Sets the score of a variable. -/
@[noinline] def setScore (v score : Nat) (o : Order) : Order :=
  { o with scores := o.scores.setIfInBounds v score }

/-- Raises the score of a variable. -/
def promote (v : Nat) (o : Order) : Order :=
  let score := o.scores.getD v 0 + o.gain
  let o := o.setScore v score
  match o.places.getD v 0 with
  | 0 => o
  | i + 1 => rise depth i o

/-- Raises what later conflicts are worth. Once that is too large a number, it is scaled down, and
the scores with it. -/
@[noinline] def raiseGain (o : Order) : Order :=
  if 1000000000000000 < o.gain then
    { o with gain := o.gain / 1000000000000, scores := o.scores.map (· / 1000000000000) }
  else { o with gain := o.gain + o.gain / 20 }

end Order

end ClauseLearning

end JudgmentAggregation
