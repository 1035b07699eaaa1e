/-!
# Aggregation rules and strategies

The names by which rules and strategies are known. Names are compared without regard to the case
of ASCII letters.
-/

namespace JudgmentAggregation

/-- An **aggregation rule** selects, among the admissible outcomes, those that represent the
profile best. All tied outcomes are selected. -/
inductive Rule where
  /-- Maximizes the total number of agreements between voters and labels. -/
  | kemeny
  /-- Maximizes the agreements label by label, compared from the greatest to the least. -/
  | leximax
  /-- Maximizes the number of voters whose majority judgments the outcome follows. -/
  | young
  /-- Maximizes the number of strict majority judgments that the outcome follows. -/
  | slater
  /-- Follows all the strict majority judgments. -/
  | majority
  /-- Minimizes the distance to the farthest voter. -/
  | maxHamming
deriving DecidableEq

/-- The way in which the selected outcomes are found. -/
inductive Strategy where
  /-- Lists the admissible outcomes and compares them. -/
  | bruteForce
  /-- Solves an optimization problem whose optimal models are the selected outcomes. -/
  | optimization
deriving DecidableEq

/-- The text with its ASCII letters in lower case. -/
def asciiLower (text : String) : String :=
  String.ofList (text.toList.map Char.toLower)

namespace Rule

/-- The rules, in their usual order. -/
def all : List Rule :=
  [.kemeny, .leximax, .young, .slater, .majority, .maxHamming]

/-- The name of a rule. -/
def name : Rule → String
  | .kemeny => "kemeny"
  | .leximax => "leximax"
  | .young => "young"
  | .slater => "slater"
  | .majority => "majority"
  | .maxHamming => "maxhamming"

/-- The rule of a name. -/
def ofName? (text : String) : Option Rule :=
  all.find? fun r => r.name == asciiLower text

end Rule

namespace Strategy

/-- The strategies, in their usual order. -/
def all : List Strategy :=
  [.bruteForce, .optimization]

/-- The name of a strategy. -/
def name : Strategy → String
  | .bruteForce => "brute-force"
  | .optimization => "optimization"

/-- The strategy of a name. -/
def ofName? (text : String) : Option Strategy :=
  all.find? fun s => s.name == asciiLower text

end Strategy

end JudgmentAggregation
