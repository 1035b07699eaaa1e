import JudgmentAggregation.Formula.Basic

/-!
# The text of a formula

A negation is written `~x`, a conjunction `(x & y)`, a disjunction `(x | y)` and an implication
`(x -> y)`. Every connective but the negation writes its parentheses, so that the text shows the
tree. A node without operands is written `()` and a node with one operand `(x)`.
-/

namespace JudgmentAggregation

namespace Formula

mutual

/-- The text of a formula. -/
def display : Formula → String
  | .atom v => v
  | .not f => "~" ++ f.display
  | .and fs => "(" ++ displayList " & " fs ++ ")"
  | .or fs => "(" ++ displayList " | " fs ++ ")"
  | .implies f g => "(" ++ f.display ++ " -> " ++ g.display ++ ")"

/-- The texts of some operands, with a separator between them. -/
def displayList (separator : String) : List Formula → String
  | [] => ""
  | f :: fs => f.display ++ displayRest separator fs

/-- The texts of the operands after the first one, each behind a separator. -/
def displayRest (separator : String) : List Formula → String
  | [] => ""
  | f :: fs => separator ++ f.display ++ displayRest separator fs

end

end Formula

end JudgmentAggregation
