import JudgmentAggregation.Sat.ClauseLearning.State

/-!
# Propagation

Every clause watches two of its literals. When a literal becomes false, the clauses that watch it
look for another one to watch; where there is none, the clause makes its other watched literal true,
or is false.
-/

namespace JudgmentAggregation

namespace ClauseLearning

namespace State

/-- The place of a literal that is not false, among the last `n` of a clause. -/
def replacement? (s : State) (c : Array Nat) : (n : Nat) → Option Nat
  | 0 => none
  | n + 1 =>
    let i := c.size - (n + 1)
    if s.value (c.getD i 0) == 2 then replacement? s c n else some i

/-- Goes through the last `n` of the clauses that watched the literal `k`, which has become false.
A clause that stays watching it goes to `kept`. The result holds the number of a clause that is
false, if one is met. -/
def visit (k : Nat) (watching : Array Nat) : (n : Nat) → (kept : Array Nat) → State →
    Option Nat × State
  | 0, kept, s => (none, s.setWatching k kept)
  | n + 1, kept, s =>
    let i := watching.getD (watching.size - (n + 1)) 0
    let c := s.clause i
    let here := if c.getD 0 0 == k then 0 else 1
    let other := c.getD (1 - here) 0
    let v := s.value other
    if v == 1 then visit k watching n (kept.push i) s
    else match s.replacement? c (c.size - 2) with
      | some j =>
        visit k watching n kept ((s.exchange i here j).watch (c.getD j 0) i)
      | none =>
        if v == 2 then
          let kept := kept ++ watching.extract (watching.size - (n + 1)) watching.size
          (some i, s.setWatching k kept)
        else visit k watching n (kept.push i) (s.assign other (some i))

/-- Propagates up to `n` literals of the trail. The result holds the number of a clause that is
false, if one is met. -/
def propagate : (n : Nat) → State → Option Nat × State
  | 0, s => (none, s)
  | n + 1, s =>
    match s.trail[s.head]? with
    | none => (none, s)
    | some k =>
      let k := opposite k
      let watching := s.watches.getD k #[]
      match visit k watching watching.size #[] (s.setWatching k #[]).advance with
      | (some i, s) => (some i, s)
      | (none, s) => propagate n s

end State

end ClauseLearning

end JudgmentAggregation
