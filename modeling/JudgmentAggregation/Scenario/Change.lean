import JudgmentAggregation.Sat.Oracle
import JudgmentAggregation.Scenario.Basic

/-!
# Building scenarios

A scenario is built from the empty one by changes. A change puts its formulas into negation normal
form and is made only if the scenario stays consistent: formulas use declared variables, the agenda
has no formula twice, something satisfies the input constraints, something satisfies the output
constraints, and every judgment set agrees with the input constraints. Otherwise the error names the
first invariant that would break.
-/

namespace JudgmentAggregation

/-- A change to a scenario. -/
inductive Change where
  /-- Declares a variable. -/
  | variable (name : String)
  /-- Adds a formula to the agenda. -/
  | agenda (f : Formula)
  /-- Adds an input constraint. -/
  | input (f : Formula)
  /-- Adds an output constraint. -/
  | output (f : Formula)
  /-- Adds a group of voters who accept some formulas of the agenda. -/
  | judgment (multiplicity : Nat) (accepted : List Formula)

/-- The label that a change gives to its formula, in the scenario that it makes. -/
def Change.label? : Change → Scenario → Option Nat
  | .agenda _, s => some s.agenda.size
  | _, _ => none

namespace Scenario

variable {γ : Type}

/-- The failure of a change that would break an invariant. -/
def violation (v : Violation) : Error :=
  .ofCause (.inconsistent v)

/-! ### The checks -/

/-- The formula uses declared variables only. -/
def checkVariables (s : Scenario) (f : Formula) : Result Unit :=
  match f.vars.find? fun v => !s.declared.contains v with
  | some v => .error (violation (.undeclaredVariable v f))
  | none => .ok ()

/-- Some formulas are satisfiable together, over the variables of the scenario; otherwise there is a
violation. -/
def checkSatisfiable (B : Backend γ) (s : Scenario) (fs : List Formula) (v : Violation) :
    Run γ Unit := do
  if ← (Oracle.satisfiable B fs s.allVariables).inContext .checkingConsistency then return ()
  else throw (violation v)

/-- Something satisfies the input constraints. -/
def checkInputs (B : Backend γ) (s : Scenario) (f : Formula) : Run γ Unit :=
  s.checkSatisfiable B (s.inputs ++ s.agenda.definitions) (.inputConstraints f)

/-- Something satisfies the output constraints. -/
def checkOutputs (B : Backend γ) (s : Scenario) (f : Formula) : Run γ Unit :=
  s.checkSatisfiable B (s.outputs ++ s.agenda.definitions) (.outputConstraints f)

/-- A judgment set agrees with the input constraints. -/
def checkJudgmentSet (B : Backend γ) (s : Scenario) (i : Nat) (j : JudgmentSet) : Run γ Unit :=
  s.checkSatisfiable B (s.judgmentFormulas j) (.judgmentSet i j.accepted)

/-- Some judgment sets, the first of which has index `i`, agree with the input constraints. -/
def checkJudgmentSetsFrom (B : Backend γ) (s : Scenario) : (i : Nat) → List JudgmentSet → Run γ Unit
  | _, [] => return ()
  | i, j :: js => do
    s.checkJudgmentSet B i j
    checkJudgmentSetsFrom B s (i + 1) js

/-- All the judgment sets agree with the input constraints. -/
def checkJudgmentSets (B : Backend γ) (s : Scenario) : Run γ Unit :=
  s.checkJudgmentSetsFrom B 0 s.profile

/-! ### The changes -/

/-- Declares a variable. Its name must be an atom. -/
def declare (name : String) (s : Scenario) : Result Scenario :=
  match Formula.parse name with
  | .error e => .error (e.inContext (.declaringVariable name))
  | .ok f =>
    if f = .atom name then .ok { s with declared := SortedList.insert name s.declared }
    else .error (.ofCause (.malformed ⟨0, .notAnAtom name⟩))

/-- Adds a formula to the agenda. -/
def addToAgenda (B : Backend γ) (f : Formula) (s : Scenario) : Run γ Scenario := do
  let f := f.toNormal
  Run.ofResult (s.checkVariables f)
  if (s.agenda.labelOf? f).isSome then throw (violation (.duplicateAgendaFormula f))
  let s := { s with agenda := s.agenda.push f }
  s.checkInputs B f
  s.checkOutputs B f
  s.checkJudgmentSets B
  Run.record (.agendaExtended f s.agenda.size)
  return s

/-- Adds an input constraint. -/
def addInput (B : Backend γ) (f : Formula) (s : Scenario) : Run γ Scenario := do
  let f := f.toNormal
  Run.ofResult (s.checkVariables f)
  let s := { s with inputs := s.inputs ++ [f] }
  s.checkInputs B f
  s.checkJudgmentSets B
  Run.record (.inputConstrained f)
  return s

/-- Adds an output constraint. -/
def addOutput (B : Backend γ) (f : Formula) (s : Scenario) : Run γ Scenario := do
  let f := f.toNormal
  Run.ofResult (s.checkVariables f)
  let s := { s with outputs := s.outputs ++ [f] }
  s.checkOutputs B f
  Run.record (.outputConstrained f)
  return s

/-- The group of voters who accept some more formulas in negation normal form, or the first of
these that is not in the agenda. -/
def accept (s : Scenario) : List Formula → JudgmentSet → Except Formula JudgmentSet
  | [], j => .ok j
  | f :: fs, j =>
    match s.agenda.labelOf? f with
    | some l =>
      s.accept fs { j with
        accepted := SortedList.insert f j.accepted
        labels := SortedList.insert l j.labels }
    | none => .error f

/-- Adds a group of voters. -/
def addJudgmentSet (B : Backend γ) (multiplicity : Nat) (accepted : List Formula) (s : Scenario) :
    Run γ Scenario := do
  let i := s.profile.length
  if multiplicity = 0 then throw (violation (.nullMultiplicity i))
  match s.accept (accepted.map Formula.toNormal) ⟨multiplicity, [], []⟩ with
  | .error f => throw (violation (.unknownAgendaFormula f))
  | .ok j =>
    s.checkJudgmentSet B i j
    Run.record (.judgmentAdded i multiplicity)
    return { s with profile := s.profile ++ [j] }

/-- Makes a change. -/
def change (B : Backend γ) (c : Change) (s : Scenario) : Run γ Scenario :=
  match c with
  | .variable name => Run.ofResult (s.declare name)
  | .agenda f => s.addToAgenda B f
  | .input f => s.addInput B f
  | .output f => s.addOutput B f
  | .judgment n fs => s.addJudgmentSet B n fs

/-- Makes a change if it can be made, and leaves the scenario as it is otherwise. Either way there
is an answer: the label of a formula that is added to the agenda, or the error. -/
def attempt (B : Backend γ) (c : Change) (s : Scenario) :
    StateM (Session γ) (Result (Option Nat) × Scenario) := do
  match ← (s.change B c).run with
  | .ok s' => return (.ok (c.label? s'), s')
  | .error e => return (.error e, s)

end Scenario

end JudgmentAggregation
