import JudgmentAggregation.Cnf.Basic

/-!
# Satisfiability backends

A **backend** answers satisfiability queries. It is a parameter of everything that solves: which
model it finds, and whether it gives up, is its own affair and may change from call to call, since
a memory goes through all its calls. `Backend.Sound` says that its answers are true whenever it
gives one, and `Backend.Complete` that it always gives one.

A model may leave variables without a value; they are read as false.
-/

namespace JudgmentAggregation

/-- The values found for the variables, variable `v` being at place `v`. -/
structure Model where
  values : Array (Option Bool)
deriving DecidableEq

namespace Model

/-- The value of a variable, if the model has one. -/
@[inline] def value? (m : Model) (v : Nat) : Option Bool :=
  m.values[v]?.join

/-- The valuation of all variables, those without a value being false. -/
@[inline] def valuation (m : Model) : Valuation Nat := fun v => (m.value? v).getD false

end Model

/-- What a solving call finds out, without the model. -/
inductive Verdict where
  | satisfiable
  | unsatisfiable
  | unknown
deriving DecidableEq

/-- The answer to a query. -/
inductive Answer where
  | sat (m : Model)
  | unsat
  | unknown
deriving DecidableEq

/-- The verdict of an answer. -/
def Answer.verdict : Answer → Verdict
  | .sat _ => .satisfiable
  | .unsat => .unsatisfiable
  | .unknown => .unknown

/-- A satisfiability query: clauses, and literals that are to be true as well. -/
structure Query where
  clauses : Cnf Nat
  assumptions : List (Literal Nat)

/-- Whether a valuation satisfies the clauses and the assumptions of a query. -/
@[specialize] def Query.eval (A : Valuation Nat) (q : Query) : Bool :=
  q.clauses.eval A && q.assumptions.all (·.eval A)

/-- An answerer of queries; `γ` is the type of its memory. -/
structure Backend (γ : Type) where
  answer : Query → γ → Answer × γ

variable {γ : Type}

/-- An answer is **true** of a query when its model satisfies the query, or when it denies that
there is one and nothing satisfies the query. Giving up is true of any query. -/
def Answer.TrueOf (q : Query) : Answer → Prop
  | .sat m => q.eval m.valuation = true
  | .unsat => ∀ A, q.eval A = false
  | .unknown => True

namespace Backend

/-- All the answers are true. -/
def Sound (B : Backend γ) : Prop :=
  ∀ q g, (B.answer q g).1.TrueOf q

/-- The backend never gives up. -/
def Complete (B : Backend γ) : Prop :=
  ∀ q g, (B.answer q g).1 ≠ .unknown

/-- A backend that gives up from its `k`-th call on, counted from 0, and answers as `B` before. -/
def givingUpFrom (k : Nat) (B : Backend γ) : Backend (γ × Nat) where
  answer q g :=
    if k ≤ g.2 then (.unknown, g.1, g.2 + 1)
    else
      let (a, m) := B.answer q g.1
      (a, m, g.2 + 1)

theorem Sound.givingUpFrom {B : Backend γ} (h : B.Sound) (k : Nat) : (B.givingUpFrom k).Sound := by
  intro q g
  simp only [Backend.givingUpFrom]
  split
  · trivial
  · exact h q g.1

end Backend

end JudgmentAggregation
