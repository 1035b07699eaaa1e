import JudgmentAggregation.Error
import JudgmentAggregation.Sat.Backend

/-!
# Sessions

Computations that solve go on in a session: it holds the memory of the backend and the list of the
events so far, such as the solving calls made and the constraints added. `Run` is the type of such
computations. A computation that ends in an error leaves its events behind as well.
-/

namespace JudgmentAggregation

/-- A solving call: the greatest variable that the solver knew and the clauses that it had when the
call started (the last one first), and the verdict. -/
structure Call where
  greatest : Nat
  clauses : Cnf Nat
  verdict : Verdict

/-- What happens in a session. A number is told of when an encoder of bounds may use it as a
variable or leaves it free. -/
inductive Event where
  | solved (call : Call)
  | numbered (v : Nat)
  | agendaExtended (f : Formula) (label : Nat)
  | inputConstrained (f : Formula)
  | outputConstrained (f : Formula)
  | judgmentAdded (index multiplicity : Nat)
  | constraintsUnsatisfiable
  | firstBound (objective bound : Nat)
  | newBound (objective bound : Nat)
  | optimalValue (objective value : Nat)
  | comparingOutcomes (r : Rule)
  | admissibleFound (count : Nat)
  | optimizing (r : Rule)
  | objectivesCounted (r : Rule) (count : Nat)
  | outcomesSelected (r : Rule) (count : Nat)

/-- How important a message is. -/
inductive Level where
  | info
  | debug
deriving DecidableEq

namespace Verdict

/-- The word for a verdict. -/
def name : Verdict → String
  | .satisfiable => "SAT"
  | .unsatisfiable => "UNSAT"
  | .unknown => "UNKNOWN"

end Verdict

/-- What a listener of a solver is told: that a call starts, with the greatest variable and the
number of clauses, or how it ends. -/
inductive Notice where
  | start (greatest clauses : Nat)
  | finish (verdict : Verdict)

namespace Notice

/-- The message that passes a notice on. -/
def message : Notice → String
  | .start greatest clauses => "launching SAT solver on an instance with " ++ toString greatest ++
      " variables and " ++ toString clauses ++ " clauses"
  | .finish verdict => "SAT solver ended with result " ++ verdict.name

end Notice

/-- What some listeners are told of a solving call, all of its start before all of its end. -/
def Call.notices (listeners : Nat) (c : Call) : List Notice :=
  [Notice.start c.greatest c.clauses.length, .finish c.verdict].flatMap (List.replicate listeners)

namespace Event

/-- How important an event is. -/
def level : Event → Level
  | .comparingOutcomes _ | .admissibleFound _ | .optimizing _ | .objectivesCounted ..
  | .outcomesSelected .. => .info
  | _ => .debug

/-- The messages that tell of an event. The log is one listener; nothing is said about a solving
call that is given up, nor about numbers. -/
def messages : Event → List String
  | .solved ⟨_, _, .unknown⟩ => []
  | .solved c => (c.notices 1).map Notice.message
  | .numbered _ => []
  | .agendaExtended f l =>
    ["added formula " ++ f.display ++ " to the agenda with label " ++ toString l]
  | .inputConstrained f => ["added input constraint " ++ f.display]
  | .outputConstrained f => ["added output constraint " ++ f.display]
  | .judgmentAdded i m =>
    ["added judgment set #" ++ toString i ++ " with multiplicity " ++ toString m]
  | .constraintsUnsatisfiable =>
    ["the hard constraints of the optimization problem are unsatisfiable"]
  | .firstBound i b => ["objective #" ++ toString i ++ ": first bound is " ++ toString b]
  | .newBound i b => ["objective #" ++ toString i ++ ": new bound is " ++ toString b]
  | .optimalValue i b => ["objective #" ++ toString i ++ ": optimal value is " ++ toString b]
  | .comparingOutcomes r => ["evaluating rule " ++ r.name ++ " by brute force"]
  | .admissibleFound n => ["found " ++ toString n ++ " admissible outcomes"]
  | .optimizing r => ["evaluating rule " ++ r.name ++ " by optimization"]
  | .objectivesCounted r n =>
    ["the optimization problem for rule " ++ r.name ++ " has " ++ toString n ++ " objectives"]
  | .outcomesSelected r n => ["rule " ++ r.name ++ " selected " ++ toString n ++ " outcomes"]

/-- The solving calls among some events, of which the last one comes first. -/
def calls (es : List Event) : List Call :=
  es.reverse.filterMap fun
    | .solved c => some c
    | _ => none

end Event

/-- The memory of the backend and the events so far, the last one first. -/
structure Session (γ : Type) where
  memory : γ
  events : List Event

/-- A computation in a session, with its result or error. -/
abbrev Run (γ : Type) := ExceptT Error (StateM (Session γ))

namespace Session

variable {γ : Type}

/-- A session in which nothing has happened. -/
def start (memory : γ) : Session γ := ⟨memory, []⟩

/-- The solving calls of a session, the first one first. -/
def calls (s : Session γ) : List Call :=
  Event.calls s.events

end Session

namespace Run

variable {γ α : Type}

/-- A result that needs no session. -/
def ofResult (r : Result α) : Run γ α :=
  ExceptT.mk (pure r)

/-- Tells of an event. -/
def record (e : Event) : Run γ Unit :=
  modify fun s => { s with events := e :: s.events }

/-- The computation, whose errors get one more context. -/
def inContext (c : Context) (x : Run γ α) : Run γ α :=
  x.adapt (Error.inContext c)

end Run

end JudgmentAggregation
