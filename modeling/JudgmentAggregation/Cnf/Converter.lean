import JudgmentAggregation.Cnf.Basic
import JudgmentAggregation.Error
import JudgmentAggregation.Formula.NormalForm

/-!
# Conversion into clauses

A conjunction at the top of a formula becomes several clauses, and a disjunction below it one
clause. Any conjunction or disjunction deeper down is stood for by an **auxiliary variable**, and
clauses state that the auxiliary variable is equivalent to it.

A converter hands out the auxiliary names, a stem and a number from 0 on, and remembers for which
formula it gave each of them. The same formula has the same name in all the conversions of one
converter, while each conversion states anew the definitions that it uses. The stem starts with an
underscore, which no atom of a formula text does.
-/

namespace JudgmentAggregation

/-- The stem of the auxiliary names, and the named formulas, the last one first. -/
structure Converter where
  stem : String
  names : List (Formula × String)

namespace Converter

/-- A converter that has named nothing yet. Its names start with an underscore and the given
word. -/
def ofNamespace (word : String) : Converter :=
  ⟨"_" ++ word, []⟩

/-- The converter whose names start with `_aux`. -/
def standard : Converter :=
  ofNamespace "aux"

/-- The name of a formula, given to it now if it has none. -/
def name (c : Converter) (f : Formula) : String × Converter :=
  match c.names.lookup f with
  | some n => (n, c)
  | none =>
    let n := c.stem ++ toString c.names.length
    (n, { c with names := (f, n) :: c.names })

end Converter

/-- A conversion under way: the converter, the auxiliary names defined so far in this conversion,
and the clauses, the last one first. -/
structure Conversion where
  converter : Converter
  defined : List String
  clauses : Cnf String

namespace Conversion

/-- One more clause. -/
def emit (c : Clause String) (s : Conversion) : Conversion :=
  { s with clauses := c :: s.clauses }

/-- The clauses that make `name` equivalent to the conjunction of some literals. -/
def conjunctionClauses (aux : Literal String) (operands : Clause String) : Cnf String :=
  operands.map (fun l => [aux.negate, l]) ++ [aux :: operands.map Literal.negate]

/-- The clauses that make `name` equivalent to the disjunction of some literals: its negation is
equivalent to the conjunction of their negations. -/
def disjunctionClauses (aux : Literal String) (operands : Clause String) : Cnf String :=
  conjunctionClauses aux.negate (operands.map Literal.negate)

/-- Several more clauses, in order. -/
def emitAll (F : Cnf String) (s : Conversion) : Conversion :=
  { s with clauses := F.reverse ++ s.clauses }

/-- The name of a compound formula, whether it is still to be defined in this conversion, and the
conversion in which it is. -/
def introduce (f : Formula) (s : Conversion) : String × Bool × Conversion :=
  let (n, converter) := s.converter.name f
  if s.defined.contains n then (n, false, { s with converter })
  else (n, true, { s with converter, defined := n :: s.defined })

mutual

/-- The literal that stands for a formula in negation normal form. A compound formula gets its name
first; then the definitions of its operands are stated, then its own. Any other formula is a
fault. -/
def literal : Formula → Conversion → Result (Literal String × Conversion)
  | .atom v, s => .ok (.pos v, s)
  | .not (.atom v), s => .ok (.neg v, s)
  | .not _, _ => .error .fault
  | .and fs, s =>
    match s.introduce (.and fs) with
    | (n, false, s) => .ok (.pos n, s)
    | (n, true, s) => do
      let (ls, s) ← literals fs s
      return (.pos n, s.emitAll (conjunctionClauses (.pos n) ls))
  | .or fs, s =>
    match s.introduce (.or fs) with
    | (n, false, s) => .ok (.pos n, s)
    | (n, true, s) => do
      let (ls, s) ← literals fs s
      return (.pos n, s.emitAll (disjunctionClauses (.pos n) ls))
  | .implies .., _ => .error .fault

/-- The literals that stand for some formulas. -/
def literals : List Formula → Conversion → Result (Clause String × Conversion)
  | [], s => .ok ([], s)
  | f :: fs, s => do
    let (l, s) ← literal f s
    let (ls, s) ← literals fs s
    return (l :: ls, s)

end

mutual

/-- The literals of a clause: the operands of the disjunctions at the top of a formula. -/
def disjuncts : Formula → Conversion → Result (Clause String × Conversion)
  | .or fs, s => disjunctsAll fs s
  | f, s => do
    let (l, s) ← literal f s
    return ([l], s)

/-- The literals of a clause, from several formulas. -/
def disjunctsAll : List Formula → Conversion → Result (Clause String × Conversion)
  | [], s => .ok ([], s)
  | f :: fs, s => do
    let (ls, s) ← disjuncts f s
    let (ms, s) ← disjunctsAll fs s
    return (ls ++ ms, s)

end

mutual

/-- States that a formula is true. -/
def conjuncts : Formula → Conversion → Result Conversion
  | .and fs, s => conjunctsAll fs s
  | f, s => do
    let (c, s) ← disjuncts f s
    return s.emit c

/-- States that some formulas are true. -/
def conjunctsAll : List Formula → Conversion → Result Conversion
  | [], s => .ok s
  | f :: fs, s => do conjunctsAll fs (← conjuncts f s)

end

end Conversion

namespace Converter

/-- Converts a formula in negation normal form. The variables given come back together with the
auxiliary variables that the clauses use. -/
def convert (c : Converter) (f : Formula) (vars : List String) :
    Result (Cnf String × List String × Converter) :=
  if f.isNormal then do
    let s ← Conversion.conjuncts f ⟨c, [], []⟩
    return (s.clauses.reverse, SortedList.insertAll s.defined vars, s.converter)
  else .error (.ofCause (.notNormal f))

end Converter

end JudgmentAggregation
