import JudgmentAggregation.Proofs.Optimization.Checked
import JudgmentAggregation.Proofs.Rule.Evaluate

/-!
# Which counts leave their range

The encodings of the rules and the search are written with checked subtractions
(`Checked.evaluate`), and this changes nothing (`Checked.evaluate_eq`): the tiers of the leximax
rule take the supports from the number of voters only after all of them have been taken from it
once.

Within the bounds that the numbers of voters and of formulas set by themselves, every count of a
scenario is the number that it stands for (`Scenario.Counts`), and the evaluation of a rule ends in
a list of outcomes, except where the strategy has no room for it
(`Strategy.evaluate_in_range`). One of the exceptions is a matter of arithmetic: brute force counts
the choices of some strict majorities by a factorial, which is too large from 21 majorities on
(`Strategy.factorial_out_of_range`).
-/

namespace JudgmentAggregation

namespace Checked

variable {γ : Type}

/-- `Scenario.missTerms` with checked subtractions. -/
def missTerms (n value l support : Nat) : Result (List (Term String)) := do
  return (if support = value then [⟨Scenario.labelLiteral l false, 1⟩] else []) ++
    if (← Count.sub n support) = value then [⟨Scenario.labelLiteral l true, 1⟩] else []

/-- `Scenario.misses` with checked subtractions. -/
def misses (s : Scenario) : Result (List Objective) := do
  let n ← s.voterCount
  let supports ← s.agenda.labels.mapM fun l => return (l, ← s.supportCount l)
  let values ← supports.mapM fun p => return [p.2, ← Count.sub n p.2]
  (SortedList.ofList values.flatten).reverse.mapM fun value => do
    return .sum (← supports.mapM fun p => missTerms n value p.1 p.2).flatten

/-- `Scenario.problem` with checked subtractions. -/
def problem (s : Scenario) : Rule → Result OptimizationProblem
  | .leximax => do
    let p ← s.admissibilityProblem
    return { p with objectives := ← misses s }
  | r => s.problem r

/-- `Strategy.optimize` with checked subtractions. -/
def optimize (B : Backend γ) (E : BoundEncoder) (r : Rule) (s : Scenario) :
    Run γ (List Outcome) := do
  Run.record (.optimizing r)
  let p ← (Run.ofResult (problem s r)).inContext (.encodingRule r)
  Run.record (.objectivesCounted r p.objectives.length)
  let e ← optimalModels B E p
  let os ← (Outcome.listAll B e).inContext (.listingOptimalModels r)
  let selected := SortedList.ofList os
  Run.record (.outcomesSelected r selected.length)
  return selected

/-- `Strategy.evaluate` with checked subtractions. Brute force has no others. -/
def evaluate (B : Backend γ) (E : BoundEncoder) (L : Lister) (strategy : Strategy) (r : Rule)
    (s : Scenario) : Run γ (List Outcome) :=
  match strategy with
  | .bruteForce => Strategy.compareAll B L r s
  | .optimization => optimize B E r s

/-- Supports can be taken from the number of voters. -/
theorem missTerms_eq {n support : Nat} (h : support ≤ n) (value l : Nat) :
    missTerms n value l support = .ok (Scenario.missTerms n value l support) := by
  rw [missTerms, Count.sub_eq_ok h]
  rfl

theorem misses_eq (s : Scenario) : misses s = s.misses := by
  rw [misses, Scenario.misses]
  cases s.voterCount with
  | error e => rfl
  | ok n =>
    rw [Result.ok_bind, Result.ok_bind]
    cases s.agenda.labels.mapM fun l => do return (l, ← s.supportCount l) with
    | error e => rfl
    | ok supports =>
      rw [Result.ok_bind, Result.ok_bind]
      cases hvalues : supports.mapM fun p => do return [p.2, ← Count.sub n p.2] with
      | error e => rfl
      | ok values =>
        -- All the supports have been taken from the number of voters.
        have hle : ∀ p ∈ supports, p.2 ≤ n := fun p hp => by
          obtain ⟨b, hb⟩ := Result.exists_of_mapM hvalues p hp
          by_contra hlt
          rw [Count.sub, if_neg hlt] at hb
          cases hb
        rw [Result.ok_bind, Result.ok_bind]
        refine Result.mapM_eq_ok fun value _ => ?_
        rw [Result.mapM_eq_ok fun p hp => missTerms_eq (hle p hp) value p.1]
        rfl

theorem problem_eq (s : Scenario) (r : Rule) : problem s r = s.problem r := by
  cases r with
  | leximax =>
    rw [problem, misses_eq]
    rfl
  | kemeny | young | slater | majority | maxHamming => rfl

/-- Checking the subtractions makes no difference to an evaluation. -/
theorem evaluate_eq (B : Backend γ) (E : BoundEncoder) (L : Lister) (strategy : Strategy)
    (r : Rule) (s : Scenario) : evaluate B E L strategy r s = strategy.evaluate B E L r s := by
  cases strategy with
  | bruteForce => rfl
  | optimization =>
    rw [evaluate, optimize, problem_eq, optimalModels_eq]
    rfl

end Checked

namespace Scenario

variable {s : Scenario} {L : Lister} {os : List Outcome} {ls : List (Nat × Bool)} {n : Nat}

/-- The counts that brute force makes are the numbers they stand for: the voters, the supporters of
a label, twice as many for a strict majority, the scores of an outcome, and the same for included
voters. -/
structure Counts (s : Scenario) : Prop where
  voterCount : s.voterCount = .ok (voters s.profile)
  supportCount l : s.supportCount l = .ok (s.support l)
  strictMajority l : s.strictMajority l = .ok (strictSide (s.support l) (voters s.profile))
  majorityLiterals : s.majorityLiterals = .ok s.majority
  agreements o : s.agreements o = .ok (s.accords o)
  totalAgreement o : s.totalAgreement o = .ok (Count.total (s.accords o))
  included c : Inclusion s.profile c → Count.sum c = .ok (Count.total c) ∧
    s.includedMajority c (Count.total c) = .ok (s.majorityOf c)
  followIncluded os cs : (∀ c, c ∈ cs ↔ Inclusion s.profile c) →
    ∃ best, s.followIncluded os cs none = .ok best

/-- In a moderate scenario all that the rules count are counts. -/
theorem Moderate.counts (h : s.Moderate) : s.Counts where
  voterCount := voterCount_eq h.voters
  supportCount := supportCount_eq h.voters
  strictMajority := strictMajority_eq h.voters
  majorityLiterals := majorityLiterals_eq h.voters
  agreements := agreements_eq h.voters
  totalAgreement := totalAgreement_eq h
  included _ hc := ⟨Count.sum_eq_ok (Nat.lt_of_le_of_lt (total_included_le hc)
    (voters_lt_limit h.voters)), includedMajority_eq h.voters hc⟩
  followIncluded _ _ hcs := (followIncluded_selects h.voters hcs).imp fun _ hbest => hbest.1

/-- Choices of judgments are counted if there are at most 20 judgments, and otherwise only if none
or all of them are chosen. -/
theorem choices_iff (hL : L.Correct) :
    (∃ cs, choices L ls n = .ok cs) ↔ ls.length ≤ 20 ∨ n = 0 ∨ ls.length ≤ n := by
  constructor
  · rintro ⟨cs, hcs⟩
    by_contra hn
    obtain ⟨hlength, hzero, hlt⟩ : 20 < ls.length ∧ 0 < n ∧ n < ls.length := by omega
    rw [choices_eq_fault hL hlength hzero hlt] at hcs
    cases hcs
  · intro h
    by_cases hzero : n = 0
    · exact ⟨_, if_pos hzero⟩
    by_cases hle : ls.length ≤ n
    · exact ⟨_, (if_neg hzero).trans (if_pos hle)⟩
    · obtain ⟨cs, hcs, -⟩ := exists_choices hL (Nat.le_of_not_le hle)
        (.inl (h.resolve_right (not_or_intro hzero hle)))
      exact ⟨cs, hcs⟩

/-- A selection ends in a list exactly if the outcomes can be compared. -/
theorem select_iff (hL : L.Correct) (h : s.Moderate) (r : Rule) (os : List Outcome) :
    (∃ selected, s.select L r os = .ok selected) ↔ s.Comparable os r := by
  refine ⟨fun ⟨_, hselected⟩ => comparable_of_select hL h.voters hselected, fun hr => ?_⟩
  obtain ⟨selected, hselected, -⟩ := select_spec hL h hr
  exact ⟨selected, hselected⟩

end Scenario

namespace Strategy

open Scenario

/-- **The arithmetic stays in range.** If twice the number of judgments is a count, with one voter
and one formula more, and so is twice the number of voters with it, then every count that brute
force makes on any outcomes is the number it stands for, except for those of choices among more than
20 judgments, with any correct lister. With any sound and complete backend and any correct encoder,
an evaluation in which all the subtractions are checked ends in a list of outcomes exactly if the
strategy has room for the rule, as long as the variables that the encoder uses fit signed 32-bit
words. -/
theorem evaluate_in_range {s : Scenario} (hs : s.Reachable)
    (hjudgments : 2 * (voters s.profile + 1) * (s.agenda.size + 1) < Count.limit) :
    s.Counts ∧ ∀ L : Lister, L.Correct →
      (∀ n, (∃ cs, choices L s.majority n = .ok cs) ↔
        s.majority.length ≤ 20 ∨ n = 0 ∨ s.majority.length ≤ n) ∧
      (∀ r os, (∃ selected, s.select L r os = .ok selected) ↔ s.Comparable os r) ∧
      ∀ (strategy : Strategy) (r : Rule) (γ : Type) (B : Backend γ) (E : BoundEncoder),
        B.Sound → B.Complete → E.Correct → ∀ σ, (Checked.evaluate B E L strategy r s).Fits σ →
          ∃ result σ', (Checked.evaluate B E L strategy r s).Ends σ result σ' ∧
            ((∃ os, result = .ok os) ↔ s.Tractable strategy r) ∧
            (¬ s.Tractable strategy r → result = .error .fault) := by
  have hlimit : Count.limit = 2 * 9223372036854775808 := by decide
  have hproduct : (voters s.profile + 1) * (s.agenda.size + 1) < 9223372036854775808 := by
    rw [hlimit, Nat.mul_assoc] at hjudgments
    exact Nat.lt_of_mul_lt_mul_left hjudgments
  have hmoderate : s.Moderate := moderate_of_lt
    (Nat.lt_of_le_of_lt (Nat.mul_le_mul_right _ (Nat.le_succ _)) hproduct)
  have hsize : s.agenda.size < 9223372036854775808 := calc
    s.agenda.size ≤ s.agenda.size + 1 := Nat.le_succ _
    _ ≤ (voters s.profile + 1) * (s.agenda.size + 1) := Nat.le_mul_of_pos_left _ (Nat.succ_pos _)
    _ < 9223372036854775808 := hproduct
  refine ⟨hmoderate.counts, fun L hL => ⟨fun n => choices_iff hL, select_iff hL hmoderate,
    fun strategy r γ B E hsound hcomplete hE σ hfit => ?_⟩⟩
  rw [Checked.evaluate_eq] at hfit ⊢
  by_cases hr : s.Tractable strategy r
  · obtain ⟨os, hsorted, hos⟩ :=
      exists_selected hs.wellFormed (Nat.lt_trans hsize (by decide)) r
    obtain ⟨σ', hends⟩ :=
      evaluate_spec hs.wellFormed hsound hcomplete hsize hmoderate hE hL hr hfit hsorted hos
    exact ⟨_, σ', hends, iff_of_true ⟨os, rfl⟩ hr, fun hn => absurd hr hn⟩
  · obtain ⟨σ', hends⟩ := evaluate_eq_fault hs.wellFormed hsound hcomplete hsize hmoderate E hL hr σ
    exact ⟨_, σ', hends, iff_of_false nofun hr, fun _ => rfl⟩

/-- The leximax rule on three voters, by optimization. -/
theorem evaluate_in_range_contested :
    contested.Reachable ∧
    2 * (voters contested.profile + 1) * (contested.agenda.size + 1) < Count.limit ∧
    contested.Counts ∧
    (Checked.evaluate .exhaustive .thresholds .standard .optimization .leximax contested).Fits
      (.start ()) ∧
    ∃ os σ', (Checked.evaluate .exhaustive .thresholds .standard .optimization .leximax
      contested).Ends (.start ()) (.ok os) σ' := by
  have hjudgments : 2 * (voters contested.profile + 1) * (contested.agenda.size + 1) <
      Count.limit := by decide
  have hfit : (Checked.evaluate .exhaustive .thresholds .standard .optimization .leximax
      contested).Fits (.start ()) := by decide +kernel
  obtain ⟨hcounts, hlister⟩ := evaluate_in_range contested_reachable hjudgments
  obtain ⟨-, -, hevaluate⟩ := hlister .standard Lister.standard_correct
  obtain ⟨result, σ', hends, hiff, -⟩ := hevaluate .optimization .leximax Unit .exhaustive
    .thresholds Backend.exhaustive_sound Backend.exhaustive_complete
    BoundEncoder.thresholds_correct (.start ()) hfit
  obtain ⟨os, rfl⟩ := hiff.2 trivial
  exact ⟨contested_reachable, hjudgments, hcounts, hfit, os, σ', hends⟩

/-- One voter and 21 formulas are well within the bounds, but the choices of 20 out of 21 judgments
are counted by a factorial that is not, and brute force faults on Slater's rule. -/
theorem factorial_out_of_range :
    disputed.Reachable ∧ 2 * voters disputed.profile < Count.limit ∧
    2 * (voters disputed.profile + 1) * (disputed.agenda.size + 1) < Count.limit ∧
    choices .standard disputed.majority 20 = .error .fault ∧
    ∃ σ', (Checked.evaluate .exhaustive .thresholds .standard .bruteForce .slater
      disputed).Ends (.start ()) (.error .fault) σ' := by
  have hjudgments : voters disputed.profile * (disputed.agenda.size + 1) < 9223372036854775808 := by
    decide
  have hlength : disputed.majority.length = 21 := by decide
  obtain ⟨σ', hends⟩ := evaluate_eq_fault disputed_reachable.wellFormed Backend.exhaustive_sound
    Backend.exhaustive_complete (by decide) (moderate_of_lt hjudgments) .thresholds
    Lister.standard_correct disputed_intractable (.start ())
  refine ⟨disputed_reachable, by decide, by decide, ?_, σ', ?_⟩
  · exact choices_eq_fault Lister.standard_correct (by omega) (by omega) (by omega)
  · rw [Checked.evaluate_eq]
    exact hends

end Strategy

end JudgmentAggregation
