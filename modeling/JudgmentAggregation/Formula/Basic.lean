import JudgmentAggregation.SortedList

/-!
# Propositional formulas

`Formula` is the type of syntax trees over named atoms. Conjunctions and disjunctions have any
number of operands; the empty conjunction is true and the empty disjunction is false. A formula
has a truth value under a valuation of the names (`Formula.eval`), and a set of variables, those
of its atoms (`Formula.vars`).
-/

namespace JudgmentAggregation

/-- A propositional formula. -/
inductive Formula where
  | atom (name : String)
  | not (operand : Formula)
  | and (operands : List Formula)
  | or (operands : List Formula)
  | implies (premise conclusion : Formula)

/-- A **valuation** gives each variable a truth value. -/
abbrev Valuation (α : Type) := α → Bool

namespace Formula

instance : Inhabited Formula := ⟨.and []⟩

mutual

/-- Equality of formulas is decided by comparing the trees. -/
def decEq : (f g : Formula) → Decidable (f = g)
  | .atom a, .atom b => decidable_of_iff (a = b) (by simp)
  | .not f, .not g => match decEq f g with
    | isTrue h => isTrue (by rw [h])
    | isFalse h => isFalse (by simpa using h)
  | .and fs, .and gs => match decEqList fs gs with
    | isTrue h => isTrue (by rw [h])
    | isFalse h => isFalse (by simpa using h)
  | .or fs, .or gs => match decEqList fs gs with
    | isTrue h => isTrue (by rw [h])
    | isFalse h => isFalse (by simpa using h)
  | .implies f f', .implies g g' => match decEq f g with
    | isFalse h => isFalse (by simp [h])
    | isTrue h => match decEq f' g' with
      | isTrue h' => isTrue (by rw [h, h'])
      | isFalse h' => isFalse (by simp [h'])
  | .atom _, .not _ | .atom _, .and _ | .atom _, .or _ | .atom _, .implies .. => isFalse (by simp)
  | .not _, .atom _ | .not _, .and _ | .not _, .or _ | .not _, .implies .. => isFalse (by simp)
  | .and _, .atom _ | .and _, .not _ | .and _, .or _ | .and _, .implies .. => isFalse (by simp)
  | .or _, .atom _ | .or _, .not _ | .or _, .and _ | .or _, .implies .. => isFalse (by simp)
  | .implies .., .atom _ | .implies .., .not _ | .implies .., .and _ | .implies .., .or _ =>
    isFalse (by simp)

/-- Equality of lists of formulas. -/
def decEqList : (fs gs : List Formula) → Decidable (fs = gs)
  | [], [] => isTrue rfl
  | f :: fs, g :: gs => match decEq f g with
    | isFalse h => isFalse (by simp [h])
    | isTrue h => match decEqList fs gs with
      | isTrue h' => isTrue (by rw [h, h'])
      | isFalse h' => isFalse (by simp [h'])
  | [], _ :: _ => isFalse (by simp)
  | _ :: _, [] => isFalse (by simp)

end

instance : DecidableEq Formula := decEq

/-- A **literal** is an atom or the negation of an atom. -/
def isLiteral : Formula → Bool
  | .atom _ => true
  | .not (.atom _) => true
  | _ => false

/-! ### Truth -/

mutual

/-- The truth value of a formula. -/
def eval (A : Valuation String) : Formula → Bool
  | .atom v => A v
  | .not f => !f.eval A
  | .and fs => evalAll A fs
  | .or fs => evalAny A fs
  | .implies f g => !f.eval A || g.eval A

/-- All the formulas are true. -/
def evalAll (A : Valuation String) : List Formula → Bool
  | [] => true
  | f :: fs => f.eval A && evalAll A fs

/-- One of the formulas is true. -/
def evalAny (A : Valuation String) : List Formula → Bool
  | [] => false
  | f :: fs => f.eval A || evalAny A fs

end

theorem evalAll_eq_all (A : Valuation String) (fs : List Formula) :
    evalAll A fs = fs.all (·.eval A) := by
  induction fs with
  | nil => rfl
  | cons f fs ih => simp [evalAll, ih]

theorem evalAny_eq_any (A : Valuation String) (fs : List Formula) :
    evalAny A fs = fs.any (·.eval A) := by
  induction fs with
  | nil => rfl
  | cons f fs ih => simp [evalAny, ih]

/-! ### Variables -/

mutual

/-- Adds the variables of a formula to a set. -/
def addVariables : Formula → List String → List String
  | .atom v, s => SortedList.insert v s
  | .not f, s => f.addVariables s
  | .and fs, s => addVariablesAll fs s
  | .or fs, s => addVariablesAll fs s
  | .implies f g, s => g.addVariables (f.addVariables s)

/-- Adds the variables of some formulas to a set. -/
def addVariablesAll : List Formula → List String → List String
  | [], s => s
  | f :: fs, s => addVariablesAll fs (f.addVariables s)

end

/-- The set of the variables of a formula. -/
def vars (f : Formula) : List String :=
  f.addVariables []

end Formula

end JudgmentAggregation
