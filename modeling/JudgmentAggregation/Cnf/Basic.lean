import JudgmentAggregation.Formula.Basic

/-!
# Clauses

A literal is a variable with a sign, a clause a disjunction of literals and a CNF formula a
conjunction of clauses. The variables are of any type: names (`String`) on the side of formulas,
positive numbers (`Nat`) on the side of solvers. The empty clause is false and the empty CNF
formula is true.
-/

namespace JudgmentAggregation

/-- A variable with a sign. -/
structure Literal (α : Type) where
  var : α
  positive : Bool
deriving DecidableEq, Inhabited

/-- A disjunction of literals. -/
abbrev Clause (α : Type) := List (Literal α)

/-- A conjunction of clauses. -/
abbrev Cnf (α : Type) := List (Clause α)

variable {α : Type}

namespace Literal

/-- The positive literal of a variable. -/
def pos (v : α) : Literal α := ⟨v, true⟩

/-- The negative literal of a variable. -/
def neg (v : α) : Literal α := ⟨v, false⟩

/-- The opposite literal. -/
def negate (l : Literal α) : Literal α := { l with positive := !l.positive }

/-- The truth value of a literal. -/
@[inline] def eval (A : Valuation α) (l : Literal α) : Bool := A l.var == l.positive

@[simp] theorem eval_negate (A : Valuation α) (l : Literal α) : l.negate.eval A = !l.eval A := by
  obtain ⟨v, b⟩ := l
  cases b <;> cases h : A v <;> simp [negate, eval, h]

@[simp] theorem negate_negate (l : Literal α) : l.negate.negate = l := by
  simp [negate]

/-- Literals are ordered by their variables, then the negative one comes first. -/
instance [Ord α] : Ord (Literal α) where
  compare l m := (compare l.var m.var).then (compare l.positive m.positive)

/-- The text of a literal. -/
def display (l : Literal String) : String :=
  if l.positive then l.var else "~" ++ l.var

/-- The literal as a formula. -/
def toFormula (l : Literal String) : Formula :=
  if l.positive then .atom l.var else .not (.atom l.var)

end Literal

/-- The truth value of a clause. -/
@[specialize] def Clause.eval (A : Valuation α) (c : Clause α) : Bool := c.any (·.eval A)

/-- The truth value of a CNF formula. -/
@[specialize] def Cnf.eval (A : Valuation α) (F : Cnf α) : Bool := F.all (Clause.eval A)

/-- A clause has the same value under valuations that agree on its variables. -/
theorem Clause.eval_congr {A B : Valuation α} {c : Clause α} (h : ∀ l ∈ c, A l.var = B l.var) :
    c.eval A = c.eval B := by
  induction c with
  | nil => rfl
  | cons l c ih =>
    have hl : l.eval A = l.eval B := by simp [Literal.eval, h l List.mem_cons_self]
    have hc := ih fun m hm => h m (List.mem_cons_of_mem _ hm)
    simp only [Clause.eval] at hc
    simp [Clause.eval, hl, hc]

/-- A CNF formula has the same value under valuations that agree on its variables. -/
theorem Cnf.eval_congr {A B : Valuation α} {F : Cnf α} (h : ∀ c ∈ F, ∀ l ∈ c, A l.var = B l.var) :
    F.eval A = F.eval B := by
  induction F with
  | nil => rfl
  | cons c F ih =>
    have hF := ih fun d hd => h d (List.mem_cons_of_mem _ hd)
    simp only [Cnf.eval] at hF
    simp [Cnf.eval, Clause.eval_congr (h c List.mem_cons_self), hF]

/-- The text of a clause, always in parentheses. -/
def Clause.display (c : Clause String) : String :=
  "(" ++ " | ".intercalate (c.map Literal.display) ++ ")"

/-- The clause as a formula: a literal if it has one, otherwise a disjunction. -/
def Clause.toFormula : Clause String → Formula
  | [l] => l.toFormula
  | c => .or (c.map Literal.toFormula)

namespace Cnf

/-- The text of a CNF formula. -/
def display (F : Cnf String) : String :=
  " & ".intercalate (F.map Clause.display)

/-- The CNF formula as the conjunction of its clauses. -/
def toFormula (F : Cnf String) : Formula :=
  .and (F.map Clause.toFormula)

/-- The set of the variables of a CNF formula. -/
def vars (F : Cnf String) : List String :=
  SortedList.ofList (F.flatten.map Literal.var)

end Cnf

end JudgmentAggregation
