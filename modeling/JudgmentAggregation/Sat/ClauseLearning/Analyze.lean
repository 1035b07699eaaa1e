import JudgmentAggregation.Sat.ClauseLearning.State

/-!
# Learning from conflicts

When a clause is false, it is resolved with the reasons of the propagated literals, the last one
first, until one literal of the last level is left: that of the last decision and what it
propagated. Literals that follow from the rest are resolved away as well. The resulting clause is
learned: it makes the literal that is left true as soon as its other literals are false, and the
search goes back to where that is.
-/

namespace JudgmentAggregation

namespace ClauseLearning

/-- A clause being resolved.

* `seen` tells which variables have been in it, and `met` lists them.
* `earlier` are its literals of earlier levels, and `pending` is the number of those of the last
  level.
* `chain` are the resolutions made, the last one first. -/
structure Analysis where
  seen : Array Bool
  met : List Nat
  earlier : List Nat
  pending : Nat
  chain : List (Literal Nat × Resolution.Premise)

namespace Analysis

/-- The analysis of no clause yet, of `n` variables. -/
def empty (n : Nat) : Analysis :=
  ⟨Array.replicate n false, [], [], 0, []⟩

/-- Takes in a literal, which is of the last level or not. -/
@[noinline] def insert (k : Nat) (last : Bool) (a : Analysis) : Analysis :=
  let a := { a with seen := a.seen.setIfInBounds (k / 2) true, met := k / 2 :: a.met }
  if last then { a with pending := a.pending + 1 } else { a with earlier := k :: a.earlier }

/-- Notes a resolution upon a literal of the last level. -/
def resolve (k : Nat) (p : Resolution.Premise) (a : Analysis) : Analysis :=
  { a with pending := a.pending - 1, chain := (decode k, p) :: a.chain }

/-- Notes a resolution upon a literal of an earlier level. -/
def drop (k : Nat) (p : Resolution.Premise) (a : Analysis) : Analysis :=
  { a with earlier := a.earlier.erase (opposite k), chain := (decode k, p) :: a.chain }

end Analysis

namespace State

/-- Takes in the literals of a clause, but those of one variable. -/
def addLiterals (s : State) (v : Nat) (c : Array Nat) (a : Analysis) : Analysis :=
  c.foldl (fun a k =>
    if k / 2 == v || a.seen.getD (k / 2) false then a
    else a.insert k (s.level k == s.decisions.size)) a

/-- Resolves with the reasons of the first `n` literals of the trail, the last one first, until one
literal of the last level is left. The result holds the opposite of that literal, and its place on
the trail. -/
def resolveToOne (s : State) : (n : Nat) → Analysis → Nat × Nat × Analysis
  | 0, a => (0, 0, a)
  | n + 1, a =>
    let k := s.trail.getD n 0
    if a.seen.getD (k / 2) false then
      match s.reason (k / 2) with
      | none => (opposite k, n, a)
      | some i =>
        if a.pending == 1 then (opposite k, n, a)
        else
          resolveToOne s n (addLiterals s (k / 2) (s.clause i) (a.resolve k (s.premise i)))
    else resolveToOne s n a

/-- Resolves with the reasons of the first `n` literals of the trail, the last one first, wherever
all the variables of the reason have been in the clause: then the clause gets shorter. -/
def simplify (s : State) : (n : Nat) → Analysis → Analysis
  | 0, a => a
  | n + 1, a =>
    let k := s.trail.getD n 0
    if a.seen.getD (k / 2) false then
      match s.reason (k / 2) with
      | none => simplify s n a
      | some i =>
        if (s.clause i).all fun m => a.seen.getD (m / 2) false then
          simplify s n (a.drop k (s.premise i))
        else simplify s n a
    else simplify s n a

/-- Resolves with the reasons of the first `n` literals of the trail, the last one first, wherever
there is a reason. -/
def resolveAll (s : State) : (n : Nat) → Analysis → Analysis
  | 0, a => a
  | n + 1, a =>
    let k := s.trail.getD n 0
    if a.seen.getD (k / 2) false then
      match s.reason (k / 2) with
      | none => resolveAll s n a
      | some i =>
        resolveAll s n (addLiterals s (k / 2) (s.clause i) (a.resolve k (s.premise i)))
    else resolveAll s n a

/-- The literal of the greatest level, put first. -/
def latestFirst (s : State) : List Nat → List Nat
  | [] => []
  | k :: ks =>
    match latestFirst s ks with
    | [] => [k]
    | m :: ms => if s.level m < s.level k then k :: m :: ms else m :: k :: ms

/-- Raises the scores of some variables. -/
def promoteAll (vs : List Nat) (s : State) : State :=
  (vs.foldl (fun s v => s.promote v) s).raiseGain

/-- Learns from a false clause that has literals of the last level. -/
def learn (i : Nat) (s : State) : State :=
  let (k, n, a) := s.resolveToOne s.trail.size
    (s.addLiterals s.size (s.clause i) (.empty s.size))
  let a := s.simplify n a
  let step : Resolution.Step := ⟨s.premise i, a.chain.reverse⟩
  let earlier := s.latestFirst a.earlier
  let level := (earlier.head?.map s.level).getD 0
  let s := (s.promoteAll a.met).backtrack level
  let s := ((s.addLearned (k :: earlier) step).count (k :: earlier)).watchLast (k :: earlier)
  s.assign k (some (s.clauses.size - 1))

/-- Derives from a clause, whose literals are false except for those of the variable `v`, a clause
of these literals and opposites of decisions. -/
def conclude (i v : Nat) (s : State) : State :=
  let a := s.resolveAll s.trail.size (s.addLiterals v (s.clause i) (.empty s.size))
  { s with
    learned := s.learned + 1
    steps := ⟨s.premise i, a.chain.reverse⟩ :: s.steps }

end State

end ClauseLearning

end JudgmentAggregation
