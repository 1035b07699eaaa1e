import JudgmentAggregation.Sat.Solver
import JudgmentAggregation.Sat.VariableIndex

/-!
# Enumerating models

An enumerator lists the models of the clauses of a solver, seen on some named variables only (the
projection). Whenever a model is found, a clause is added that its projection falsifies, so that no
projection is listed twice. The list ends when there is no further model, or after the first
failure. On the empty projection all models look the same, and there is at most one to list.
-/

namespace JudgmentAggregation

/-- The values of the variables of a projection, by name. -/
abbrev NamedModel := List (String × Bool)

/-- A solver, the named variables of interest, and whether the list has ended. -/
structure Enumerator where
  solver : Solver
  projection : List (String × Nat)
  exhausted : Bool

namespace Enumerator

variable {γ : Type}

/-- The enumerator of the models of a solver. -/
def ofSolver (s : Solver) (projection : List (String × Nat)) : Enumerator :=
  ⟨s, projection, false⟩

/-- The enumerator of the models of a CNF formula on a set of variables, which are numbered
first. -/
def ofCnf (F : Cnf String) (vars : List String) : Enumerator :=
  let (projection, i) := VariableIndex.empty.insertAll vars
  ofSolver (Solver.empty.addAll (i.cnf F).1) projection

/-- What a model looks like on a projection. -/
def project (projection : List (String × Nat)) (m : Model) : NamedModel :=
  projection.map fun p => (p.1, m.valuation p.2)

/-- The clause that is false exactly where a projection looks as it does in a model. -/
def blocking (projection : List (String × Nat)) (m : Model) : Clause Nat :=
  projection.map fun p => ⟨p.2, !m.valuation p.2⟩

/-- The next model or failure of the list, if there is one. -/
def next (B : Backend γ) (e : Enumerator) :
    StateM (Session γ) (Option (Result NamedModel) × Enumerator) := do
  if e.exhausted then return (none, e)
  let (answer, s) ← e.solver.solve B []
  match answer.model? with
  | .ok none => return (none, { e with solver := s, exhausted := true })
  | .error err => return (some (.error err), { e with solver := s, exhausted := true })
  | .ok (some m) =>
    let item := project e.projection m
    if e.projection.isEmpty then
      return (some (.ok item), { e with solver := s, exhausted := true })
    else
      return (some (.ok item), { e with solver := s.add (blocking e.projection m) })

/-- The first models of the list, at most `n`. -/
def take (B : Backend γ) : (n : Nat) → Enumerator → Run γ (List NamedModel × Enumerator)
  | 0, e => return ([], e)
  | n + 1, e => do
    match ← e.next B with
    | (none, e) => return ([], e)
    | (some item, e) =>
      let m ← Run.ofResult item
      let (ms, e) ← take B n e
      return (m :: ms, e)

/-- A number that no list of distinct models reaches. -/
def bound (e : Enumerator) : Nat :=
  Nat.pow 2 e.projection.length + 1

/-- All the models of the list. -/
def toList (B : Backend γ) (e : Enumerator) : Run γ (List NamedModel) := do
  return (← e.take B e.bound).1

end Enumerator

end JudgmentAggregation
