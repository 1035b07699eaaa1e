import JudgmentAggregation.Formula.Token

/-!
# Reading formulas

The negation binds tightest, then the disjunction, the conjunction and last the implication, so
that `a | b & c -> d` reads `((a | b) & c) -> d`. Implications associate to the left. A chain of
two or more operands of `|` or of `&` is one node; a chain of one operand is that operand.

The reader goes through the tokens once, from left to right, with a stack of **groups**: the top
level and the parentheses that are still open. A group holds what has been read of it so far
(pending negations, disjuncts, conjuncts and a premise), and between two tokens it either waits
for an operand or has just got one. A refusal tells the place of the token that no formula has
there, or, when the text ends too early, what is missing.
-/

namespace JudgmentAggregation

/-- What is wrong with a text that should be a formula. -/
inductive SyntaxProblem where
  | unexpectedCharacter (c : Char)
  | emptyFormula
  | operandExpected (found : Token)
  | unmatchedParen
  | parenExpected (found : Token)
  | afterFormula (found : Token)
  | unexpectedEnd
  | missingParen
  | notAnAtom (text : String)
deriving DecidableEq

/-- A problem at a byte offset of a text. -/
structure SyntaxError where
  position : Nat
  problem : SyntaxProblem
deriving DecidableEq

namespace SyntaxProblem

/-- The words for a problem. -/
def describe : SyntaxProblem → String
  | .unexpectedCharacter c => "unexpected character \"" ++ String.singleton c ++ "\""
  | .emptyFormula => "empty formula"
  | .operandExpected t => "expected an operand, found " ++ t.describe
  | .unmatchedParen => "unmatched closing parenthesis"
  | .parenExpected t => "expected \")\", found " ++ t.describe
  | .afterFormula t => "unexpected " ++ t.describe ++ " after a complete formula"
  | .unexpectedEnd => "unexpected end of formula"
  | .missingParen => "missing closing parenthesis"
  | .notAnAtom text => "\"" ++ text ++ "\" is not an atom"

end SyntaxProblem

namespace Formula

/-- The disjunction of a chain of operands; a chain of one operand is that operand. -/
def ofDisjuncts : List Formula → Formula
  | [f] => f
  | fs => .or fs

/-- The conjunction of a chain of operands; a chain of one operand is that operand. -/
def ofConjuncts : List Formula → Formula
  | [f] => f
  | fs => .and fs

/-- The formula under some negations. -/
def negations : Nat → Formula → Formula
  | 0, f => f
  | n + 1, f => negations n (.not f)

/-- What has been read of the top level or of an open parenthesis. The lists of operands have the
last one first. -/
structure Group where
  position : Nat
  pending : Nat
  disjuncts : List Formula
  conjuncts : List Formula
  premise : Option Formula

namespace Group

/-- The group that starts at an offset. -/
def start (position : Nat) : Group :=
  ⟨position, 0, [], [], none⟩

/-- One more pending negation. -/
def negate (g : Group) : Group :=
  { g with pending := g.pending + 1 }

/-- An operand ends here; the pending negations apply to it. -/
def push (f : Formula) (g : Group) : Group :=
  { g with pending := 0, disjuncts := negations g.pending f :: g.disjuncts }

/-- The chain of disjuncts ends here and is the next conjunct. -/
def endDisjunction (g : Group) : Group :=
  { g with disjuncts := [], conjuncts := ofDisjuncts g.disjuncts.reverse :: g.conjuncts }

/-- The formula of a group that ends here. -/
def formula (g : Group) : Formula :=
  let conclusion := ofConjuncts g.endDisjunction.conjuncts.reverse
  match g.premise with
  | none => conclusion
  | some f => .implies f conclusion

/-- What stands before an arrow is the premise of what follows. -/
def endPremise (g : Group) : Group :=
  { g with disjuncts := [], conjuncts := [], premise := some g.formula }

end Group

/-- The groups being read, the innermost one apart, and whether an operand is due. -/
structure Reader where
  current : Group
  outer : List Group
  operandDue : Bool

namespace Reader

/-- Before the first token. -/
def start : Reader :=
  ⟨Group.start 0, [], true⟩

/-- The token taken where an operand is due. -/
def operand (r : Reader) (t : Token.Located) : Except SyntaxError Reader :=
  match t.token with
  | .not => .ok { r with current := r.current.negate }
  | .atom name => .ok { r with current := r.current.push (.atom name), operandDue := false }
  | .leftParen => .ok ⟨Group.start t.position, r.current :: r.outer, true⟩
  | found => .error ⟨t.position, .operandExpected found⟩

/-- The token taken behind an operand. -/
def operator (r : Reader) (t : Token.Located) : Except SyntaxError Reader :=
  match t.token, r.outer with
  | .or, _ => .ok { r with operandDue := true }
  | .and, _ => .ok { r with current := r.current.endDisjunction, operandDue := true }
  | .implies, _ => .ok { r with current := r.current.endPremise, operandDue := true }
  | .rightParen, g :: gs => .ok ⟨g.push r.current.formula, gs, false⟩
  | .rightParen, [] => .error ⟨t.position, .unmatchedParen⟩
  | found, _ :: _ => .error ⟨t.position, .parenExpected found⟩
  | found, [] => .error ⟨t.position, .afterFormula found⟩

/-- One more token. -/
def step (r : Reader) (t : Token.Located) : Except SyntaxError Reader :=
  if r.operandDue then r.operand t else r.operator t

/-- The tokens from first to last. -/
def run (r : Reader) : List Token.Located → Except SyntaxError Reader
  | [] => .ok r
  | t :: ts => match r.step t with
    | .ok r => r.run ts
    | .error e => .error e

/-- The formula read, where the text ends. -/
def finish (r : Reader) (length : Nat) : Except SyntaxError Formula :=
  if r.operandDue then .error ⟨length, .unexpectedEnd⟩
  else match r.outer with
    | [] => .ok r.current.formula
    | _ :: _ => .error ⟨r.current.position, .missingParen⟩

end Reader

/-- Reads the tokens of a text of the given length in bytes. -/
def ofTokens? (length : Nat) (ts : List Token.Located) : Except SyntaxError Formula :=
  if ts.isEmpty then .error ⟨0, .emptyFormula⟩
  else match Reader.start.run ts with
    | .ok r => r.finish length
    | .error e => .error e

/-- Reads a formula. -/
def parse? (text : String) : Except SyntaxError Formula :=
  match Token.scan? text with
  | .ok ts => ofTokens? text.utf8ByteSize ts
  | .error (position, c) => .error ⟨position, .unexpectedCharacter c⟩

end Formula

end JudgmentAggregation
