import JudgmentAggregation.Proofs.Bound.Extremes
import JudgmentAggregation.Proofs.Bound.Sequence
import JudgmentAggregation.Proofs.Cnf.Namespaces
import JudgmentAggregation.Proofs.Cnf.RoundTrip
import JudgmentAggregation.Proofs.Formula.Display
import JudgmentAggregation.Proofs.Formula.Refusal
import JudgmentAggregation.Proofs.Optimization.Search
import JudgmentAggregation.Proofs.Outcome.Admissible
import JudgmentAggregation.Proofs.Rule.Anonymity
import JudgmentAggregation.Proofs.Rule.Arithmetic
import JudgmentAggregation.Proofs.Rule.Consistency
import JudgmentAggregation.Proofs.Rule.Enrollment
import JudgmentAggregation.Proofs.Rule.Existence
import JudgmentAggregation.Proofs.Rule.Insistence
import JudgmentAggregation.Proofs.Rule.Majority
import JudgmentAggregation.Proofs.Rule.Neutrality
import JudgmentAggregation.Proofs.Rule.Slater
import JudgmentAggregation.Proofs.Sat.Enumeration
import JudgmentAggregation.Proofs.Sat.Numbering
import JudgmentAggregation.Proofs.Sat.VariableIndex
import JudgmentAggregation.Proofs.Sat.Word
import JudgmentAggregation.Proofs.Scenario.Interchange
import JudgmentAggregation.Rule.Evaluate
import JudgmentAggregation.Sat.ClauseLearning
import JudgmentAggregation.Sat.Word
import JudgmentAggregation.Scenario.Change
