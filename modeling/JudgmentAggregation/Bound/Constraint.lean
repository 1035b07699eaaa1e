import JudgmentAggregation.Bound.Normal
import JudgmentAggregation.Bound.Threshold
import JudgmentAggregation.Sat.Solver

/-!
# Bounds as clauses of a solver

A bound on a weighted sum is brought into normal form first. Then it holds always, or never, or it
is a lower bound on a sum of positive weights over distinct variables, which an encoder writes as
clauses; an upper bound is a lower bound on the opposite literals. Under a guard, the clauses only
count where the guard is true.

What an encoder is given and what it gives are words: literals and variables have 32 bits, so that
from 2³¹ variables on they are other ones than meant. The variables that an encoder may use and
those that it leaves free are told in the session (`Event.numbered`).
-/

namespace JudgmentAggregation

/-- A solver together with the numbering of its variables. -/
structure Store where
  solver : Solver
  index : VariableIndex

namespace Store

variable {γ : Type}

/-- A clause that only counts where the guard is true. -/
def guardClause (guard : Option (Literal Nat)) (c : Clause Nat) : Clause Nat :=
  match guard with
  | none => c
  | some g => c ++ [g.negate]

/-- Nothing satisfies a bound: the guard has to be false. -/
def forbid (guard : Option (Literal Nat)) (s : Store) : Store :=
  { s with solver := s.solver.add (guardClause guard []) }

/-- Takes the clauses of an encoder that was given the variables from `first` on and left those from
`free` on. To have taken less than none of them is beyond any capacity. -/
def receive (guard : Option (Literal Nat)) (first : Int) (F : Cnf Nat) (free : Nat) (s : Store) :
    Result Store := do
  let taken ← Word32.check (Word32.low free - first)
  if taken < 0 then throw .fault
  let index ← s.index.reserve taken.toNat
  let F ← F.mapM fun c => c.mapM Literal.narrow
  return ⟨s.solver.addAll (F.map (guardClause guard)), index⟩

/-- Adds the clauses for a lower bound on a sum of positive weights over distinct variables, which
is neither trivial nor out of reach. -/
def encode (E : BoundEncoder) (ts : List (Term Nat)) (bound : Nat) (guard : Option (Literal Nat))
    (s : Store) : Run γ Store := do
  Run.record (.numbered (s.index.size + 1))
  let first ← Run.ofResult (Word32.check (1 + Word32.low s.index.size))
  let (F, free) := E.encode (ts.map Term.toWords) (Count.signed bound) first
  Run.record (.numbered free)
  Run.ofResult (s.receive guard first F free)

/-- Requires a weighted sum to be at least a bound, where the guard is true. -/
def atLeast (E : BoundEncoder) (ts : List (Term Nat)) (bound : Nat) (guard : Option (Literal Nat))
    (s : Store) : Run γ Store := do
  let n ← Run.ofResult (Term.normalize ts)
  if bound ≤ n.constant then return s
  let total ← Run.ofResult (Count.sum (n.terms.map Term.weight))
  if total < bound - n.constant then return s.forbid guard
  s.encode E n.terms (bound - n.constant) guard

/-- Requires a weighted sum to be at most a bound, where the guard is true. -/
def atMost (E : BoundEncoder) (ts : List (Term Nat)) (bound : Nat) (guard : Option (Literal Nat))
    (s : Store) : Run γ Store := do
  let n ← Run.ofResult (Term.normalize ts)
  if bound < n.constant then return s.forbid guard
  let total ← Run.ofResult (Count.sum (n.terms.map Term.weight))
  if total ≤ bound - n.constant then return s
  s.encode E (n.terms.map Term.negate) (total - (bound - n.constant)) guard

end Store

end JudgmentAggregation
