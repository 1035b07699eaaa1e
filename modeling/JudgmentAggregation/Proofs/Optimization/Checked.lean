import JudgmentAggregation.Optimization.Search
import JudgmentAggregation.Proofs.Bound.Constraint

/-!
# The search with checked subtractions

The subtractions of natural numbers stop at zero, those of counts fault. Here the search is written
once more with `Count.sub` for each subtraction it makes: the greater weight of a variable less the
lesser one, a bound less a constant, the sum of the weights less a bound, and the best value less
one. The result is the same for all problems, whether or not the additions fit
(`Checked.optimalModels_eq`), so that no subtraction ever takes a number from a lesser one.

An upper bound is written as a lower bound on the opposite literals, whose terms are brought into
normal form again. They are in normal form already (`Term.Ordered.normalize_eq`).
-/

namespace JudgmentAggregation

namespace Checked

variable {γ : Type}

/-- `Term.difference` with checked subtractions. -/
def difference (v p n : Nat) : Result (List (Term Nat)) := do
  if n < p then return [⟨.pos v, ← Count.sub p n⟩]
  if p < n then return [⟨.neg v, ← Count.sub n p⟩]
  return []

/-- `Term.normalize` with checked subtractions. -/
def normalize (ts : List (Term Nat)) : Result Term.Normal := do
  let table ← Term.tally [] ts
  let constant ← Count.sum (table.map fun r => min r.2.1 r.2.2)
  return ⟨constant, (← table.mapM fun r => difference r.1 r.2.1 r.2.2).flatten⟩

/-- `Store.atLeast` with checked subtractions. -/
def atLeast (E : BoundEncoder) (ts : List (Term Nat)) (bound : Nat) (guard : Option (Literal Nat))
    (s : Store) : Run γ Store := do
  let n ← Run.ofResult (normalize ts)
  if bound ≤ n.constant then return s
  let bound ← Run.ofResult (Count.sub bound n.constant)
  let total ← Run.ofResult (Count.sum (n.terms.map Term.weight))
  if total < bound then return s.forbid guard
  s.encode E n.terms bound guard

/-- `Store.atMost` with checked subtractions. The lower bound on the opposite literals is brought
into normal form again. -/
def atMost (E : BoundEncoder) (ts : List (Term Nat)) (bound : Nat) (guard : Option (Literal Nat))
    (s : Store) : Run γ Store := do
  let n ← Run.ofResult (normalize ts)
  if bound < n.constant then return s.forbid guard
  let bound ← Run.ofResult (Count.sub bound n.constant)
  let total ← Run.ofResult (Count.sum (n.terms.map Term.weight))
  if total ≤ bound then return s
  atLeast E (n.terms.map Term.negate) (← Run.ofResult (Count.sub total bound)) guard s

/-- `OptimizationProblem.addConstraints` with checked subtractions. -/
def addConstraints (E : BoundEncoder) : List LowerBound → Store → Run γ Store
  | [], s => return s
  | c :: cs, s => do
    let (ts, i) := s.index.terms c.terms
    let (guard, i) := match c.guard with
      | none => (none, i)
      | some g =>
        let (g, i) := i.literal g
        (some g, i)
    addConstraints E cs (← atLeast E ts c.bound guard { s with index := i })

/-- `OptimizationProblem.boundSums` with checked subtractions. -/
def boundSums (E : BoundEncoder) (bound : Nat) (guard : Option (Literal Nat)) :
    List (List (Term Nat)) → Store → Run γ Store
  | [], s => return s
  | ts :: sums, s => do boundSums E bound guard sums (← atMost E ts bound guard s)

/-- `OptimizationProblem.findBetter` with checked subtractions. -/
def findBetter (B : Backend γ) (E : BoundEncoder) (i : Nat) (sums : List (List (Term Nat)))
    (best : Nat) (s : Store) : Run γ (Option Model × Store) := do
  let (v, index) := s.index.anonymous
  let bound ← Run.ofResult (Count.sub best 1)
  OptimizationProblem.solveUnder B i v
    (← boundSums E bound (some (.pos v)) sums { s with index })

/-- `OptimizationProblem.improve` with checked subtractions. -/
def improve (B : Backend γ) (E : BoundEncoder) (i : Nat) (sums : List (List (Term Nat))) :
    (fuel best : Nat) → Model → Store → Run γ (Nat × Model × Store)
  | 0, best, m, s => return (best, m, s)
  | fuel + 1, best, m, s => do
    if best = 0 then return (best, m, s)
    let (found, s) ← findBetter B E i sums best s
    match found with
    | none => return (best, m, s)
    | some m =>
      let best ← Run.ofResult (OptimizationProblem.greatestSum m 0 sums)
      Run.record (.newBound i best)
      improve B E i sums fuel best m s

/-- `OptimizationProblem.minimize` with checked subtractions. -/
def minimize (B : Backend γ) (E : BoundEncoder) :
    (i : Nat) → List Objective → Model → Store → Run γ Store
  | _, [], _, s => return s
  | i, o :: os, m, s => do
    let (sums, index) := OptimizationProblem.indexSums o.sums s.index
    let first ← Run.ofResult (OptimizationProblem.greatestSum m 0 sums)
    Run.record (.firstBound i first)
    let (best, m, s) ← improve B E i sums first first m { s with index }
    Run.record (.optimalValue i best)
    minimize B E (i + 1) os m (← boundSums E best none sums s)

/-- `OptimizationProblem.listMinimal` with checked subtractions. -/
def listMinimal (B : Backend γ) (E : BoundEncoder) (projection : List (String × Nat))
    (os : List Objective) (s : Store) : Run γ Enumerator := do
  let (answer, solver) ← s.solver.solve B []
  match ← (Run.ofResult answer.model?).inContext .findingFirstModel with
  | none =>
    Run.record .constraintsUnsatisfiable
    return .ofSolver solver projection
  | some m =>
    let s ← minimize B E 0 os m { s with solver }
    return .ofSolver s.solver projection

/-- `OptimizationProblem.optimalModels` with checked subtractions. -/
def optimalModels (B : Backend γ) (E : BoundEncoder) (p : OptimizationProblem) :
    Run γ Enumerator := do
  let (projection, i) := VariableIndex.empty.insertAll p.projection
  let (F, i) := i.cnf p.hard
  listMinimal B E projection p.objectives
    (← addConstraints E p.constraints ⟨Solver.empty.addAll F, i⟩)

/-! ### Bounds -/

/-- The greater weight is never taken from the lesser one. -/
theorem difference_eq (v p n : Nat) : difference v p n = .ok (Term.difference v p n) := by
  rw [difference, Term.difference]
  split
  · next h => rw [Count.sub_eq_ok (Nat.le_of_lt h)]; rfl
  · split
    · next h => rw [Count.sub_eq_ok (Nat.le_of_lt h)]; rfl
    · rfl

theorem normalize_eq : normalize = Term.normalize := by
  funext ts
  rw [normalize, Term.normalize]
  cases Term.tally [] ts with
  | error e => rfl
  | ok table =>
    dsimp only
    rw [Result.ok_bind]
    cases Count.sum (table.map fun r => min r.2.1 r.2.2) with
    | error e => rfl
    | ok constant =>
      have hterms : (table.mapM fun r => difference r.1 r.2.1 r.2.2) =
          .ok (table.map fun r => Term.difference r.1 r.2.1 r.2.2) :=
        Result.mapM_eq_ok fun r _ => difference_eq _ _ _
      rw [Result.ok_bind, hterms]
      rfl

/-- The constant can be taken from a lower bound above it. -/
theorem atLeast_eq (E : BoundEncoder) : atLeast (γ := γ) E = Store.atLeast E := by
  funext ts bound guard s
  rw [atLeast, Store.atLeast, normalize_eq]
  refine bind_congr fun n => ?_
  by_cases hle : bound ≤ n.constant
  · rw [if_pos hle, if_pos hle]
  · rw [if_neg hle, if_neg hle, Count.sub_eq_ok (Nat.le_of_not_le hle)]
    rfl

/-- A lower bound on terms in order, neither trivial nor out of reach, is passed on as it is. -/
theorem atLeast_of_ordered {E : BoundEncoder} {us : List (Term Nat)} {bound : Nat}
    {guard : Option (Literal Nat)} {s : Store} (hus : Term.Ordered us)
    (htotal : Term.total us < Count.limit) (hpos : 0 < bound) (hle : bound ≤ Term.total us) :
    (s.atLeast E us bound guard : Run γ Store) = s.encode E us bound guard := by
  have hlow : ¬ bound ≤ 0 := Nat.not_le.2 hpos
  rw [Store.atLeast_eq (hus.normalize_eq htotal) htotal, if_neg hlow, Nat.sub_zero,
    if_neg (Nat.not_lt.2 hle)]

/-- The constant can be taken from an upper bound, and what is left from the weights. -/
theorem atMost_eq (E : BoundEncoder) : atMost (γ := γ) E = Store.atMost E := by
  funext ts bound guard s
  rw [atMost, Store.atMost, normalize_eq]
  cases hn : Term.normalize ts with
  | error e => rfl
  | ok n =>
    rw [Run.ofResult_bind (a := n) rfl, Run.ofResult_bind (a := n) rfl]
    by_cases hlt : bound < n.constant
    · rw [if_pos hlt, if_pos hlt]
    rw [if_neg hlt, if_neg hlt, Run.ofResult_bind (Count.sub_eq_ok (Nat.le_of_not_lt hlt))]
    cases hsum : Count.sum (n.terms.map Term.weight) with
    | error e => rw [Run.ofResult_error_bind, Run.ofResult_error_bind]
    | ok total =>
      rw [Run.ofResult_bind (a := total) rfl, Run.ofResult_bind (a := total) rfl]
      by_cases hle : total ≤ bound - n.constant
      · rw [if_pos hle, if_pos hle]
      -- The opposite literals have the same weights, and they are in normal form already.
      obtain ⟨htotal, hlimit⟩ := Count.of_sum_eq_ok hsum
      have hnegate : Term.total (n.terms.map Term.negate) = total :=
        (Term.total_negate n.terms).trans htotal
      rw [if_neg hle, if_neg hle, Run.ofResult_bind (Count.sub_eq_ok (Nat.le_of_not_le hle)),
        atLeast_eq, atLeast_of_ordered (Term.ordered_normalize hn).negate (hnegate ▸ hlimit)
          (by omega) (by omega)]

/-! ### The search -/

theorem addConstraints_eq (E : BoundEncoder) :
    addConstraints (γ := γ) E = OptimizationProblem.addConstraints E := by
  funext cs s
  induction cs generalizing s with
  | nil => rfl
  | cons c cs ih =>
    rw [addConstraints, atLeast_eq, funext ih]
    rfl

theorem boundSums_eq (E : BoundEncoder) :
    boundSums (γ := γ) E = OptimizationProblem.boundSums E := by
  funext bound guard sums s
  induction sums generalizing s with
  | nil => rfl
  | cons ts sums ih =>
    rw [boundSums, atMost_eq, funext ih]
    rfl

/-- One is taken from the best value only where it is not zero. -/
theorem findBetter_eq (B : Backend γ) (E : BoundEncoder) (i : Nat)
    (sums : List (List (Term Nat))) {best : Nat} (hbest : best ≠ 0) (s : Store) :
    findBetter B E i sums best s = OptimizationProblem.findBetter B E i sums best s := by
  rw [findBetter, boundSums_eq, Count.sub_eq_ok (Nat.pos_of_ne_zero hbest)]
  rfl

/-- The search for better values goes on alike, as it ends at zero. -/
theorem improve_eq (B : Backend γ) (E : BoundEncoder) :
    improve B E = OptimizationProblem.improve B E := by
  funext i sums fuel best m s
  induction fuel generalizing best m s with
  | zero => rfl
  | succ fuel ih =>
    by_cases hbest : best = 0
    · rw [improve, OptimizationProblem.improve, if_pos hbest, if_pos hbest]
    · rw [improve, OptimizationProblem.improve, if_neg hbest, if_neg hbest,
        findBetter_eq B E i sums hbest]
      refine bind_congr fun found => ?_
      rcases found with ⟨_ | m, s⟩
      · rfl
      · exact bind_congr fun best => bind_congr fun _ => ih best m s

theorem minimize_eq (B : Backend γ) (E : BoundEncoder) :
    minimize B E = OptimizationProblem.minimize B E := by
  funext i os m s
  induction os generalizing i m s with
  | nil => rfl
  | cons o os ih =>
    have hnext : minimize B E (i + 1) os = OptimizationProblem.minimize B E (i + 1) os :=
      funext fun m => funext fun s => ih (i + 1) m s
    rw [minimize, improve_eq, boundSums_eq, hnext]
    rfl

/-- The search for the optimal models never takes the greater from the lesser. -/
theorem optimalModels_eq (B : Backend γ) (E : BoundEncoder) :
    optimalModels B E = OptimizationProblem.optimalModels B E := by
  have hlist : listMinimal B E = OptimizationProblem.listMinimal B E := by
    funext projection os s
    rw [listMinimal, minimize_eq]
    rfl
  funext p
  rw [optimalModels, addConstraints_eq, hlist]
  rfl

end Checked

end JudgmentAggregation
