import JudgmentAggregation.Proofs.Outcome.Admissible
import JudgmentAggregation.Proofs.Rule.Criterion

/-!
# What the objectives of the rules mean

The value of the objective of a rule under a valuation is a number of the outcome that is read off
the valuation, so that the outcomes of the optimal models are those that are best by this number
(`Scenario.Represents.expresses`). This is the case for the rules whose objectives are made of the
variables of the labels: here are those with at most one objective.
-/

namespace JudgmentAggregation

namespace Term

variable {α β : Type}

/-- The value of a sum with weights 1 is the number of true literals. -/
theorem value_ones (A : Valuation α) (f : β → Literal α) (bs : List β) :
    value A (bs.map fun b => ⟨f b, 1⟩) = bs.countP fun b => (f b).eval A := by
  induction bs with
  | nil => rfl
  | cons b bs ih =>
    rw [List.map_cons, value_cons, ih, List.countP_cons, Nat.add_comm]

theorem total_ones (f : β → Literal α) (bs : List β) :
    total (bs.map fun b => ⟨f b, 1⟩) = bs.length := by
  induction bs with
  | nil => rfl
  | cons b bs ih =>
    rw [List.map_cons, total_cons, ih, List.length_cons, Nat.add_comm]

/-- The value of a sum made of parts is the sum of their values. -/
theorem value_flatMap (A : Valuation α) (f : β → List (Term α)) (bs : List β) :
    value A (bs.flatMap f) = Count.total (bs.map fun b => value A (f b)) := by
  induction bs with
  | nil => rfl
  | cons b bs ih => rw [List.flatMap_cons, value_append, ih, List.map_cons, Count.total]

theorem total_flatMap (f : β → List (Term α)) (bs : List β) :
    total (bs.flatMap f) = Count.total (bs.map fun b => total (f b)) := by
  induction bs with
  | nil => rfl
  | cons b bs ih => rw [List.flatMap_cons, total_append, ih, List.map_cons, Count.total]

end Term

theorem Objective.value_sum (A : Valuation String) (ts : List (Term String)) :
    (Objective.sum ts).value A = Term.value A ts :=
  Nat.zero_max (Term.value A ts)

namespace Scenario

variable {s : Scenario} {A A' : Valuation String} {o : Outcome} {l : Nat} {b : Bool}
  {F : Cnf String}

/-! ### Literals of labels -/

theorem eval_labelLiteral (A : Valuation String) (l : Nat) (b : Bool) :
    (labelLiteral l b).eval A = (A (Label.variableName l) == b) :=
  rfl

/-- The value of a label in an outcome read off a valuation. -/
theorem value?_reading (hl : l ∈ s.agenda.labels) :
    (s.agenda.reading A).value? l = some (A (Label.variableName l)) :=
  Agenda.value?_outcomeOf hl

/-- The agreement with what a valuation reads is the support of the value it gives. -/
theorem accord_reading (hl : l ∈ s.agenda.labels) : s.accord (s.agenda.reading A) l =
    if A (Label.variableName l) then s.support l else voters s.profile - s.support l := by
  rw [accord, value?_reading hl]
  simp

/-! ### Problems that express rules -/

theorem lex_singleton {m n : Nat} : List.Lex (· < ·) [m] [n] ↔ m < n := by
  simp [List.cons_lex_cons_iff]

/-- A narrow sum makes a narrow objective. -/
theorem narrow_sum {ts : List (Term String)} (h : Term.Narrow ts) :
    ∀ o ∈ [Objective.sum ts], ∀ us ∈ o.sums, Term.Narrow us := by
  intro o ho us hus
  rw [List.mem_singleton.1 ho] at hus
  rwa [List.mem_singleton.1 hus]

/-- A problem **expresses** a rule when its sums are narrow and the outcomes of its optimal models
are those that the rule selects. -/
structure Expresses (s : Scenario) (r : Rule) (p : OptimizationProblem) : Prop where
  projection : p.projection = s.agenda.labelNames
  narrow : p.Narrow
  selects : ∀ o, (∃ A, p.Optimal A ∧ o = s.agenda.reading A) ↔ s.Selects s.Admissible o r

/-- The problem with some objectives about the variables of the labels. -/
def objectivesProblem (s : Scenario) (F : Cnf String) (objectives : List Objective) :
    OptimizationProblem :=
  ⟨F, [], s.agenda.labelNames, objectives⟩

/-- What is feasible are the models of the clauses. -/
theorem feasible_objectivesProblem (objectives : List Objective) (A : Valuation String) :
    (s.objectivesProblem F objectives).feasible A = F.eval A := by
  rw [OptimizationProblem.feasible, objectivesProblem, List.all_nil, Bool.and_true]

/-- If the values of the objectives compare valuations as outcomes are compared, and a rule selects
the admissible outcomes than which no other is better, then the problem expresses the rule. -/
theorem Represents.expresses (hF : s.Represents F) (hs : s.WellFormed) {r : Rule}
    {objectives : List Objective}
    (hnarrow : ∀ o ∈ objectives, ∀ ts ∈ o.sums, Term.Narrow ts)
    (better : Outcome → Outcome → Prop)
    (hbetter : ∀ A A', List.Lex (· < ·) (objectives.map (Objective.value A'))
      (objectives.map (Objective.value A)) ↔ better (s.agenda.reading A') (s.agenda.reading A))
    (hselects : ∀ o, s.Selects s.Admissible o r ↔
      s.Admissible o ∧ ∀ o', s.Admissible o' → ¬ better o' o) :
    s.Expresses r (s.objectivesProblem F objectives) := by
  refine ⟨rfl, ⟨fun c hc => absurd hc List.not_mem_nil, hnarrow⟩, fun o => ?_⟩
  rw [hselects]
  constructor
  · rintro ⟨A, ⟨hA, hoptimal⟩, rfl⟩
    rw [feasible_objectivesProblem] at hA
    refine ⟨(hF.admissible_iff hs).2 ⟨A, hA, rfl⟩, ?_⟩
    intro o' ho'
    obtain ⟨A', hA', rfl⟩ := (hF.admissible_iff hs).1 ho'
    rw [← hbetter]
    exact hoptimal A' ((feasible_objectivesProblem objectives A').trans hA')
  · rintro ⟨ho, hbest⟩
    obtain ⟨A, hA, rfl⟩ := (hF.admissible_iff hs).1 ho
    refine ⟨A, ⟨(feasible_objectivesProblem objectives A).trans hA, fun A' hA' => ?_⟩, rfl⟩
    rw [feasible_objectivesProblem] at hA'
    have hnone := hbest _ ((hF.admissible_iff hs).2 ⟨A', hA', rfl⟩)
    rwa [← hbetter] at hnone

/-- The problem without objectives has the clauses for admissibility. -/
theorem admissibilityProblem_eq (hF : s.admissibilityCnf = .ok F) :
    s.admissibilityProblem = .ok (s.objectivesProblem F []) := by
  rw [admissibilityProblem, hF]
  rfl

section Problems

variable (hs : s.WellFormed) (hsize : s.agenda.size < 9223372036854775808)
  (hvoters : voters s.profile < 9223372036854775808)

theorem size_lt_limit (hsize : s.agenda.size ≤ Count.capacity 24) : s.agenda.size < Count.limit :=
  Nat.lt_of_le_of_lt hsize (by decide)

theorem size_lt_of_capacity (hsize : s.agenda.size ≤ Count.capacity 24) :
    s.agenda.size < 9223372036854775808 :=
  Nat.lt_of_le_of_lt hsize (by decide)

/-! ### Numbers of disagreements -/

/-- The terms that count the voters who disagree on a label. -/
def disagreementsOn (s : Scenario) (l : Nat) : List (Term String) :=
  [⟨labelLiteral l true, voters s.profile - s.support l⟩, ⟨labelLiteral l false, s.support l⟩]

theorem length_labels (s : Scenario) : s.agenda.labels.length = s.agenda.size :=
  List.length_range' ..

/-- Every voter agrees or disagrees on each label. -/
theorem value_disagreements (A : Valuation String) :
    Term.value A (s.agenda.labels.flatMap s.disagreementsOn) +
      Count.total (s.accords (s.agenda.reading A)) = voters s.profile * s.agenda.size := by
  have hlabel : ∀ l ∈ s.agenda.labels,
      Term.value A (s.disagreementsOn l) + s.accord (s.agenda.reading A) l =
        voters s.profile := by
    intro l hl
    have hle := s.support_le l
    rw [accord_reading hl]
    cases hA : A (Label.variableName l) <;>
      simp [disagreementsOn, Term.value, Term.trueWeights, Count.total, eval_labelLiteral, hA] <;>
      omega
  rw [Term.value_flatMap, accords, ← Count.total_map_add, ← length_labels, ← Count.total_map_const]
  exact congrArg Count.total (List.map_congr_left hlabel)

theorem total_disagreements :
    Term.total (s.agenda.labels.flatMap s.disagreementsOn) =
      voters s.profile * s.agenda.size := by
  rw [Term.total_flatMap, ← length_labels, ← Count.total_map_const]
  refine congrArg Count.total (List.map_congr_left fun l _ => ?_)
  have hle := s.support_le l
  simp only [disagreementsOn, Term.total, List.map_cons, List.map_nil, Count.total]
  omega

theorem disagreements_eq (h : voters s.profile < 9223372036854775808) :
    s.disagreements = .ok (.sum (s.agenda.labels.flatMap s.disagreementsOn)) := by
  have hterms : (s.agenda.labels.mapM fun l => do
      disagreementTerms (voters s.profile) l (← s.supportCount l)) =
        .ok (s.agenda.labels.map s.disagreementsOn) := by
    refine Result.mapM_eq_ok fun l _ => ?_
    have hsub : Count.sub (voters s.profile) (s.support l) =
        .ok (voters s.profile - s.support l) := if_pos (s.support_le l)
    rw [supportCount_eq h, Result.ok_bind, disagreementTerms, hsub]
    rfl
  rw [disagreements, voterCount_eq h, Result.ok_bind, hterms]
  rfl

include hs in
/-- The fewest disagreements are the most agreements. -/
theorem kemeny_expressed (hmoderate : s.Moderate) :
    ∃ p, s.problem .kemeny = .ok p ∧ s.Expresses .kemeny p := by
  obtain ⟨F, hF, hrepresents⟩ := s.admissibilityCnf_spec hs
  refine ⟨s.objectivesProblem F [.sum (s.agenda.labels.flatMap s.disagreementsOn)], ?_,
    hrepresents.expresses hs ?_
      (fun o' o => Count.total (s.accords o) < Count.total (s.accords o')) (fun A A' => ?_)
      fun o => and_congr_right fun _ => forall₂_congr fun o' _ => Nat.not_lt.symm⟩
  · rw [problem, admissibilityProblem_eq hF, Result.ok_bind]
    dsimp only
    rw [disagreements_eq hmoderate.voters]
    rfl
  · refine narrow_sum (Term.narrow_of_lt ?_)
    rw [total_disagreements]
    exact hmoderate.judgments
  · have hA := s.value_disagreements A
    have hA' := s.value_disagreements A'
    simp only [List.map_cons, List.map_nil, Objective.value_sum, lex_singleton]
    omega

/-! ### Judgments of strict majorities -/

/-- The majority literals are those of the strict majorities on the labels. -/
theorem mem_majority {l : Nat} {b : Bool} : (l, b) ∈ s.majority ↔
    l ∈ s.agenda.labels ∧ strictSide (s.support l) (voters s.profile) = some b := by
  rw [majority, List.mem_filterMap]
  constructor
  · rintro ⟨l', hl', hside⟩
    obtain ⟨b', hb', hpair⟩ := Option.map_eq_some_iff.1 hside
    cases hpair
    exact ⟨hl', hb'⟩
  · rintro ⟨hl, hside⟩
    exact ⟨l, hl, by rw [hside]; rfl⟩

theorem length_majority_le (s : Scenario) : s.majority.length ≤ s.agenda.size := by
  rw [← length_labels]
  exact List.length_filterMap_le _ _

/-- Whether an outcome read off a valuation follows a judgment on a label. -/
theorem follows_reading {l : Nat × Bool} (hl : l.1 ∈ s.agenda.labels) :
    ((s.agenda.reading A).value? l.1 == some l.2) = (labelLiteral l.1 l.2).eval A := by
  rw [value?_reading hl]
  rfl

/-- What a valuation reads follows as many majority literals as are true. -/
theorem followed_reading (A : Valuation String) :
    (s.agenda.reading A).followed s.majority =
      s.majority.countP fun l => (labelLiteral l.1 l.2).eval A := by
  refine List.countP_congr fun l hl => ?_
  rw [follows_reading (mem_majority.1 hl).1]

/-- What a valuation reads agrees with the majority if all its literals are true. -/
theorem agreesWith_reading (A : Valuation String) :
    (s.agenda.reading A).agreesWith s.majority =
      s.majority.all fun l => (labelLiteral l.1 l.2).eval A := by
  rw [Bool.eq_iff_iff, Outcome.agreesWith, List.all_eq_true, List.all_eq_true]
  exact forall₂_congr fun l hl => by rw [follows_reading (mem_majority.1 hl).1]

/-- Every judgment is followed or not. -/
theorem value_unfollowed (A : Valuation String) :
    Term.value A (s.majority.map fun l => ⟨(labelLiteral l.1 l.2).negate, 1⟩) +
      (s.agenda.reading A).followed s.majority = s.majority.length := by
  have hnegate := Term.value_negate A (s.majority.map fun l => ⟨labelLiteral l.1 l.2, 1⟩)
  rw [Term.value_ones, Term.total_ones, List.map_map] at hnegate
  rw [followed_reading]
  exact hnegate

include hs hsize hvoters in
/-- The fewest judgments not followed are the most that are followed. -/
theorem slater_expressed :
    ∃ p, s.problem .slater = .ok p ∧ s.Expresses .slater p := by
  obtain ⟨F, hF, hrepresents⟩ := s.admissibilityCnf_spec hs
  refine ⟨s.objectivesProblem F
    [.sum (s.majority.map fun l => ⟨(labelLiteral l.1 l.2).negate, 1⟩)], ?_,
    hrepresents.expresses hs ?_
      (fun o' o => o.followed s.majority < o'.followed s.majority) (fun A A' => ?_)
      fun o => and_congr_right fun _ => forall₂_congr fun o' _ => Nat.not_lt.symm⟩
  · rw [problem, admissibilityProblem_eq hF, Result.ok_bind]
    dsimp only
    rw [unfollowed, majorityLiterals_eq hvoters]
    rfl
  · refine narrow_sum (Term.narrow_of_lt ?_)
    rw [Term.total_ones]
    exact Nat.lt_of_le_of_lt s.length_majority_le hsize
  · have hA := s.value_unfollowed A
    have hA' := s.value_unfollowed A'
    simp only [List.map_cons, List.map_nil, Objective.value_sum, lex_singleton]
    omega

include hs hvoters in
/-- The judgments as clauses leave the outcomes that agree with them. -/
theorem majority_expressed :
    ∃ p, s.problem .majority = .ok p ∧ s.Expresses .majority p := by
  obtain ⟨F, hF, hrepresents⟩ := s.admissibilityCnf_spec hs
  have heval (A) : Cnf.eval A (s.majority.map fun l => [labelLiteral l.1 l.2]) =
      (s.agenda.reading A).agreesWith s.majority := by
    rw [agreesWith_reading, Cnf.eval, List.all_map]
    refine congrArg (List.all s.majority) (funext fun l => ?_)
    rw [Function.comp_apply, Clause.eval, List.any_cons, List.any_nil, Bool.or_false]
  refine ⟨s.objectivesProblem (F ++ s.majority.map fun l => [labelLiteral l.1 l.2]) [], ?_, rfl,
    ⟨?_, ?_⟩, fun o => ?_⟩
  · rw [problem, admissibilityProblem_eq hF, Result.ok_bind]
    dsimp only
    rw [majorityLiterals_eq hvoters]
    rfl
  · exact fun c hc => absurd hc List.not_mem_nil
  · exact fun o ho => absurd ho List.not_mem_nil
  · -- Without objectives everything that is feasible is optimal.
    have hoptimal (A) : (s.objectivesProblem
        (F ++ s.majority.map fun l => [labelLiteral l.1 l.2]) []).Optimal A ↔
          F.eval A = true ∧ (s.agenda.reading A).agreesWith s.majority = true := by
      simp [OptimizationProblem.Optimal, OptimizationProblem.feasible,
        OptimizationProblem.values, objectivesProblem, Cnf.eval_append, heval]
    simp only [hoptimal]
    show _ ↔ s.Admissible o ∧ _
    rw [hrepresents.admissible_iff hs]
    constructor
    · rintro ⟨A, ⟨hA, hagrees⟩, rfl⟩
      exact ⟨⟨A, hA, rfl⟩, hagrees⟩
    · rintro ⟨⟨A, hA, rfl⟩, hagrees⟩
      exact ⟨A, ⟨hA, hagrees⟩, rfl⟩

/-! ### Distances -/

/-- The distance of an outcome read off a valuation from a judgment set. -/
theorem value_distance (j : JudgmentSet) (A : Valuation String) :
    Term.value A (s.agenda.labels.map fun l => ⟨labelLiteral l (!j.accepts l), 1⟩) =
      (s.agenda.reading A).distance j := by
  rw [Term.value_ones, Outcome.distance, Agenda.reading, Agenda.values_outcomeOf, List.countP_map]
  refine List.countP_congr fun l _ => ?_
  rw [Function.comp_apply, eval_labelLiteral]
  cases j.accepts l <;> cases A (Label.variableName l) <;> simp

/-- The objective is the greatest distance of what a valuation reads. -/
theorem value_distances (A : Valuation String) :
    (Objective.max s.distances).value A = s.farthestDistance (s.agenda.reading A) := by
  rw [Objective.value, Objective.sums, distances, farthestDistance, List.map_map]
  refine congrArg (List.foldl Nat.max 0) (List.map_congr_left fun j _ => ?_)
  exact value_distance j A

/-- Whether distances are compared or not, without voters all of them are zero. -/
theorem lex_distances (A A' : Valuation String) {objectives : List Objective}
    (h : objectives = [.max s.distances] ∨ objectives = [] ∧ s.profile = []) :
    List.Lex (· < ·) (objectives.map (Objective.value A')) (objectives.map (Objective.value A)) ↔
      s.farthestDistance (s.agenda.reading A') < s.farthestDistance (s.agenda.reading A) := by
  rcases h with rfl | ⟨rfl, hprofile⟩
  · simp only [List.map_cons, List.map_nil, value_distances, lex_singleton]
  · simp [farthestDistance, hprofile]

/-- The problem of the rule has the distances as its objective, if there are any voters. -/
theorem problem_maxHamming_eq (hF : s.admissibilityCnf = .ok F) : ∃ objectives,
    s.problem .maxHamming = .ok (s.objectivesProblem F objectives) ∧
      (objectives = [.max s.distances] ∨ objectives = [] ∧ s.profile = []) := by
  rw [problem, admissibilityProblem_eq hF, Result.ok_bind]
  dsimp only
  cases hempty : s.profile.isEmpty with
  | true => exact ⟨[], rfl, .inr ⟨rfl, List.isEmpty_iff.1 hempty⟩⟩
  | false => exact ⟨[.max s.distances], rfl, .inl rfl⟩

include hs hsize in
/-- The least distances are found. -/
theorem maxHamming_expressed :
    ∃ p, s.problem .maxHamming = .ok p ∧ s.Expresses .maxHamming p := by
  obtain ⟨F, hF, hrepresents⟩ := s.admissibilityCnf_spec hs
  obtain ⟨objectives, hproblem, hobjectives⟩ := problem_maxHamming_eq hF
  refine ⟨_, hproblem, hrepresents.expresses hs ?_
    (fun o' o => s.farthestDistance o' < s.farthestDistance o)
    (fun A A' => lex_distances A A' hobjectives)
    fun o => and_congr_right fun _ => forall₂_congr fun o' _ => Nat.not_lt.symm⟩
  rcases hobjectives with rfl | ⟨rfl, -⟩
  · intro o ho ts hts
    rw [List.mem_singleton.1 ho] at hts
    obtain ⟨j, -, rfl⟩ := List.mem_map.1 hts
    refine Term.narrow_of_lt ?_
    rw [Term.total_ones, length_labels]
    exact hsize
  · exact fun o ho => absurd ho List.not_mem_nil

end Problems

end Scenario

end JudgmentAggregation
