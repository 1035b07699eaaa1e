import JudgmentAggregation.Session

/-!
# Incremental solvers

A solver gathers clauses and answers, as often as it is asked, whether they are satisfiable,
possibly under assumptions. The answers come from a backend.
-/

namespace JudgmentAggregation

/-- The clauses gathered, the last one first, and the greatest variable met in a clause or in an
assumption. -/
structure Solver where
  clauses : Cnf Nat
  greatest : Nat

namespace Solver

variable {γ : Type}

/-- A solver without clauses. -/
def empty : Solver := ⟨[], 0⟩

/-- The greatest of some variables and a number. -/
def greatestOf (ls : List (Literal Nat)) (n : Nat) : Nat :=
  ls.foldl (fun n l => max n l.var) n

/-- One more clause. -/
def add (c : Clause Nat) (s : Solver) : Solver :=
  ⟨c :: s.clauses, greatestOf c s.greatest⟩

/-- Several more clauses, in order. -/
def addAll (F : Cnf Nat) (s : Solver) : Solver :=
  F.foldl (fun s c => s.add c) s

/-- Whether the clauses and the assumptions are satisfiable. The solver knows the variables of the
assumptions afterwards. -/
def solve (B : Backend γ) (assumptions : List (Literal Nat)) (s : Solver) :
    StateM (Session γ) (Answer × Solver) :=
  modifyGet fun ⟨memory, events⟩ =>
    let (answer, memory) := B.answer ⟨s.clauses, assumptions⟩ memory
    let call := ⟨s.greatest, s.clauses, answer.verdict⟩
    ((answer, { s with greatest := greatestOf assumptions s.greatest }),
      ⟨memory, .solved call :: events⟩)

end Solver

/-- The model of an answer, if there is one; giving up is a failure. -/
def Answer.model? : Answer → Result (Option Model)
  | .sat m => .ok (some m)
  | .unsat => .ok none
  | .unknown => .error (.ofCause .noAnswer)

end JudgmentAggregation
