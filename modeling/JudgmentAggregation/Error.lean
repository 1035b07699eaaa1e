import JudgmentAggregation.Formula.Display
import JudgmentAggregation.Formula.Parser
import JudgmentAggregation.Rule.Basic

/-!
# Errors

A computation that gives no result ends in one of two ways. A **failure** has a cause in the
domain, and the computations it went through add their contexts to it, so that a reader sees what
was being done. A **fault** is a broken precondition: a number that leaves its range, a null
variable, an index behind the end. Nothing is said about a fault and no context is added to it.
-/

namespace JudgmentAggregation

/-- The way in which a change would break a scenario. -/
inductive Violation where
  /-- The formula uses a variable that is not declared. -/
  | undeclaredVariable (name : String) (f : Formula)
  /-- The formula is in the agenda already. -/
  | duplicateAgendaFormula (f : Formula)
  /-- The accepted formula is not in the agenda. -/
  | unknownAgendaFormula (f : Formula)
  /-- The judgment set that would get this index has no voter. -/
  | nullMultiplicity (index : Nat)
  /-- With the new formula, nothing satisfies the input constraints. -/
  | inputConstraints (f : Formula)
  /-- With the new formula, nothing satisfies the output constraints. -/
  | outputConstraints (f : Formula)
  /-- The judgment set of this index contradicts the input constraints. -/
  | judgmentSet (index : Nat) (accepted : List Formula)
deriving DecidableEq

namespace Violation

/-- The invariant that would be broken. -/
def invariant : Violation → String
  | .undeclaredVariable name _ => "undeclared variable " ++ name
  | .duplicateAgendaFormula _ => "duplicate agenda formula"
  | .unknownAgendaFormula _ => "formula not in agenda"
  | .nullMultiplicity _ => "null multiplicity"
  | .inputConstraints _ => "unsatisfiable input constraints"
  | .outputConstraints _ => "unsatisfiable output constraints"
  | .judgmentSet i _ => "judgment set #" ++ toString i ++ " violates the input constraints"

/-- The formula or the judgment set involved. -/
def detail : Violation → String
  | .undeclaredVariable _ f => f.display
  | .duplicateAgendaFormula f => f.display
  | .unknownAgendaFormula f => f.display
  | .nullMultiplicity i => "judgment set #" ++ toString i
  | .inputConstraints f => f.display
  | .outputConstraints f => f.display
  | .judgmentSet _ fs => "accepted formulas: [" ++ Formula.displayList ", " fs ++ "]"

end Violation

/-- The cause of a failure. -/
inductive Cause where
  /-- A text is not a formula. -/
  | malformed (e : SyntaxError)
  /-- A formula to be converted into clauses is not in negation normal form. -/
  | notNormal (f : Formula)
  /-- A change would break a scenario. -/
  | inconsistent (v : Violation)
  /-- No rule has this name. -/
  | unknownRule (name : String)
  /-- No strategy has this name. -/
  | unknownStrategy (name : String)
  /-- A satisfiability solver gave up. -/
  | noAnswer
deriving DecidableEq

/-- The message of a cause. -/
def Cause.message : Cause → String
  | .malformed e => "syntax error at position " ++ toString e.position ++ ": " ++ e.problem.describe
  | .notNormal f =>
    "cannot convert " ++ f.display ++ " to CNF: formula is not in negation normal form"
  | .inconsistent v => "inconsistent scenario: " ++ v.invariant ++ " (" ++ v.detail ++ ")"
  | .unknownRule name => "\"" ++ name ++ "\" is not a recognized aggregation rule"
  | .unknownStrategy name => "unknown solver strategy \"" ++ name ++ "\""
  | .noAnswer => "the SAT solver returned \"Unknown\""

/-- What was being done when a failure arose. -/
inductive Context where
  | declaringVariable (name : String)
  | checkingSatisfiability
  | checkingConsistency
  | convertingFormula (f : Formula)
  | enumeratingOutcomes
  | encodingRule (r : Rule)
  | findingFirstModel
  | optimizingObjective (index : Nat)
  | listingOptimalModels (r : Rule)
deriving DecidableEq

/-- The message of a context. -/
def Context.message : Context → String
  | .declaringVariable name => "while declaring variable \"" ++ name ++ "\""
  | .checkingSatisfiability => "while checking the satisfiability of a set of formulas"
  | .checkingConsistency => "while checking the consistency of a scenario"
  | .convertingFormula f => "while translating " ++ f.display ++ " into CNF"
  | .enumeratingOutcomes => "while enumerating the admissible outcomes"
  | .encodingRule r => "while encoding rule " ++ r.name
  | .findingFirstModel => "while looking for a first model"
  | .optimizingObjective i => "while optimizing objective #" ++ toString i
  | .listingOptimalModels r => "while computing the optimal models for rule " ++ r.name

/-- The reason why a computation gives no result. -/
inductive Error where
  /-- A precondition is broken. -/
  | fault
  /-- A cause, and what was being done, the outermost context first. -/
  | failure (cause : Cause) (context : List Context)
deriving DecidableEq

namespace Error

/-- The failure of a cause, in no context yet. -/
def ofCause (cause : Cause) : Error :=
  .failure cause []

/-- The error in one more context. A fault has none. -/
def inContext (c : Context) : Error → Error
  | .fault => .fault
  | .failure cause cs => .failure cause (c :: cs)

end Error

/-- A result, or the reason why there is none. -/
abbrev Result (α : Type) := Except Error α

/-- The formula of a text. -/
def Formula.parse (text : String) : Result Formula :=
  (Formula.parse? text).mapError fun e => .ofCause (.malformed e)

/-- The rule of a name. -/
def Rule.ofName (name : String) : Result Rule :=
  match Rule.ofName? name with
  | some r => .ok r
  | none => .error (.ofCause (.unknownRule name))

/-- The strategy of a name. -/
def Strategy.ofName (name : String) : Result Strategy :=
  match Strategy.ofName? name with
  | some s => .ok s
  | none => .error (.ofCause (.unknownStrategy name))

end JudgmentAggregation
