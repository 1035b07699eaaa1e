import JudgmentAggregation.Bound.Term

/-!
# Normal forms of weighted sums

A weighted sum is a constant plus a sum in which every variable occurs once, with a positive
weight: the terms on one literal are taken together, and `a·x + b·¬x` is `min a b` plus the
difference on the literal that has more. The constant is the least value of the sum.
-/

namespace JudgmentAggregation

namespace Term

/-- A constant plus a sum in which every variable occurs once. -/
structure Normal where
  constant : Nat
  terms : List (Term Nat)
deriving DecidableEq

/-- The weights on the positive and the negative literal of each variable, added to those of a
table. -/
def tally : List (Nat × Nat × Nat) → List (Term Nat) → Result (List (Nat × Nat × Nat))
  | table, [] => .ok table
  | table, t :: ts =>
    let (p, n) := (SortedList.get? t.literal.var table).getD (0, 0)
    if t.literal.positive then
      match Count.add p t.weight with
      | .ok p => tally (SortedList.put t.literal.var (p, n) table) ts
      | .error e => .error e
    else
      match Count.add n t.weight with
      | .ok n => tally (SortedList.put t.literal.var (p, n) table) ts
      | .error e => .error e

/-- What is left of the weights of a variable once the lesser is taken from both. -/
def difference (v p n : Nat) : List (Term Nat) :=
  if n < p then [⟨.pos v, p - n⟩]
  else if p < n then [⟨.neg v, n - p⟩]
  else []

/-- The normal form of a weighted sum. -/
def normalize (ts : List (Term Nat)) : Result Normal :=
  match tally [] ts with
  | .error e => .error e
  | .ok table =>
    match Count.sum (table.map fun r => min r.2.1 r.2.2) with
    | .error e => .error e
    | .ok constant => .ok ⟨constant, table.flatMap fun r => difference r.1 r.2.1 r.2.2⟩

end Term

end JudgmentAggregation
