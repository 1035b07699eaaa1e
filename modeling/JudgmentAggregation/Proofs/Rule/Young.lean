import JudgmentAggregation.Proofs.Rule.Objective
import JudgmentAggregation.Proofs.Rule.Select

/-!
# Bounds for the majorities of included voters

Each voter has a variable that says whether the voter is included. Under a valuation so many voters
of each group are included (`Scenario.includedUnder`), and any choice of how many can be had without
a change to what is said of labels and atoms (`Scenario.exists_includedUnder`). The bounds of a
label hold exactly if its value is not against the strict majority of the included voters, and what
is minimized is the number of those who are not included.
-/

namespace JudgmentAggregation

namespace Scenario

variable {s : Scenario} {A A' : Valuation String} {l i k : Nat} {js : List JudgmentSet}
  {G : List (JudgmentSet × List String)} {F : Cnf String}

/-! ### Voters and their variables -/

/-- How many voters of each group are included under a valuation. -/
def includedUnder (A : Valuation String) (G : List (JudgmentSet × List String)) : List Nat :=
  G.map fun g => g.2.countP A

theorem map_fst_votersFrom (i : Nat) (js : List JudgmentSet) :
    (votersFrom i js).map Prod.fst = js := by
  induction js generalizing i with
  | nil => rfl
  | cons j js ih => rw [votersFrom, List.map_cons, ih]

/-- A valuation includes voters in one of the ways there are. -/
theorem includedUnder_mem (A : Valuation String) (i : Nat) (js : List JudgmentSet) :
    Inclusion js (includedUnder A (votersFrom i js)) := by
  rw [Inclusion]
  induction js generalizing i with
  | nil => exact .nil
  | cons j js ih =>
    refine .cons ?_ (ih (i + 1))
    have hlength : ((List.range j.multiplicity).map (voterName i)).length = j.multiplicity := by
      rw [List.length_map, List.length_range]
    exact Nat.le_trans List.countP_le_length (Nat.le_of_eq hlength)

theorem total_includedUnder (A : Valuation String) (G : List (JudgmentSet × List String)) :
    Count.total (includedUnder A G) = (G.flatMap Prod.snd).countP A := by
  induction G with
  | nil => rfl
  | cons g G ih =>
    rw [includedUnder, List.map_cons, Count.total, List.flatMap_cons, List.countP_append, ← ih]
    rfl

theorem length_flatMap_votersFrom (i : Nat) (js : List JudgmentSet) :
    ((votersFrom i js).flatMap Prod.snd).length = voters js := by
  induction js generalizing i with
  | nil => rfl
  | cons j js ih =>
    rw [votersFrom, List.flatMap_cons, List.length_append, ih, List.length_map, List.length_range]
    rfl

/-- The variables of the voters are named by the places of their groups. -/
theorem exists_voterName {v : String} (hv : v ∈ (votersFrom i js).flatMap Prod.snd) :
    ∃ i' k, i ≤ i' ∧ v = voterName i' k := by
  induction js generalizing i with
  | nil => cases hv
  | cons j js ih =>
    rw [votersFrom, List.flatMap_cons] at hv
    rcases List.mem_append.1 hv with hv | hv
    · obtain ⟨k, -, rfl⟩ := List.mem_map.1 hv
      exact ⟨i, k, Nat.le_refl i, rfl⟩
    · obtain ⟨i', k, hi, rfl⟩ := ih hv
      exact ⟨i', k, by omega, rfl⟩

theorem countP_range_lt {m n : Nat} (h : n ≤ m) :
    (List.range m).countP (fun k => decide (k < n)) = n := by
  obtain ⟨d, rfl⟩ := Nat.exists_eq_add_of_le h
  have hbelow : (List.range n).countP (fun k => decide (k < n)) = (List.range n).length := by
    refine List.countP_eq_length.2 fun k hk => ?_
    exact decide_eq_true (List.mem_range.1 hk)
  have habove : ((List.range d).map (n + ·)).countP (fun k => decide (k < n)) = 0 := by
    refine List.countP_eq_zero.2 fun k hk => ?_
    obtain ⟨e, -, rfl⟩ := List.mem_map.1 hk
    simp
  rw [List.range_add, List.countP_append, hbelow, habove, List.length_range, Nat.add_zero]

/-- The valuation that includes the first `n` of the `m` voters of one group and does not change any
other variable. -/
def enroll (i n m : Nat) (A : Valuation String) : Valuation String := fun v =>
  if v ∈ (List.range m).map (voterName i) then decide (v ∈ (List.range n).map (voterName i))
  else A v

/-- The names of a group are those of its first voters. -/
theorem mem_map_voterName {n : Nat} : voterName i k ∈ (List.range n).map (voterName i) ↔ k < n := by
  rw [List.mem_map]
  refine ⟨?_, fun hlt => ⟨k, List.mem_range.2 hlt, rfl⟩⟩
  rintro ⟨k', hk', heq⟩
  rw [← (voterName_injective heq).2]
  exact List.mem_range.1 hk'

theorem countP_enroll {m n : Nat} (h : n ≤ m) (A : Valuation String) :
    ((List.range m).map (voterName i)).countP (enroll i n m A) = n := by
  rw [List.countP_map]
  refine Eq.trans (List.countP_congr fun k hk => ?_) (countP_range_lt h)
  have hincluded : enroll i n m A (voterName i k) = decide (k < n) :=
    (if_pos (List.mem_map_of_mem hk)).trans (decide_eq_decide.2 mem_map_voterName)
  rw [Function.comp_apply, hincluded]

/-- The voters of other groups have other variables. -/
theorem includedUnder_enroll (n m : Nat) (A : Valuation String) (js : List JudgmentSet) :
    includedUnder (enroll i n m A) (votersFrom (i + 1) js) =
      includedUnder A (votersFrom (i + 1) js) := by
  refine List.map_congr_left fun g hg => List.countP_congr fun v hv => ?_
  have hnot : v ∉ (List.range m).map (voterName i) := by
    intro hname
    obtain ⟨i', k', hi', rfl⟩ := exists_voterName (List.mem_flatMap.2 ⟨g, hg, hv⟩)
    obtain ⟨k, -, heq⟩ := List.mem_map.1 hname
    have := (voterName_injective heq).1
    omega
  have hsame : enroll i n m A v = A v := if_neg hnot
  rw [hsame]

/-- Some values of the variables of the voters include so many of each group, if there are. -/
theorem exists_includedUnder {included : List Nat} (h : Inclusion js included) (i : Nat)
    (A : Valuation String) :
    ∃ A', (∀ v, v ∉ (votersFrom i js).flatMap Prod.snd → A' v = A v) ∧
      includedUnder A' (votersFrom i js) = included := by
  rw [Inclusion] at h
  induction h generalizing i with
  | nil => exact ⟨A, fun _ _ => rfl, rfl⟩
  | @cons j n js included hn _ ih =>
    -- The first group comes last, since enrolling its voters does not touch those of the others.
    obtain ⟨A₁, hA₁, hincluded⟩ := ih (i + 1)
    refine ⟨enroll i n j.multiplicity A₁, ?_, ?_⟩
    · intro v hv
      rw [votersFrom, List.flatMap_cons, List.mem_append, not_or] at hv
      exact (if_neg hv.1).trans (hA₁ v hv.2)
    · have hrest := (includedUnder_enroll n j.multiplicity A₁ js).trans hincluded
      exact congrArg₂ List.cons (countP_enroll hn A₁) hrest

/-! ### Majorities of included voters -/

/-- The support of a label among the included voters is the number of true variables of those who
accept it. -/
theorem includedSupport_includedUnder (hG : G.map Prod.fst = s.profile) (A : Valuation String)
    (l : Nat) : s.includedSupport (includedUnder A G) l = (votersOn G l true).countP A := by
  rw [includedSupport, includedUnder, ← hG, List.zip_map', List.filter_map, List.map_map, votersOn,
    ← total_includedUnder, includedUnder]
  simp only [beq_true]
  rfl

/-- A voter accepts a label or rejects it. -/
theorem countP_votersOn (A : Valuation String) (G : List (JudgmentSet × List String)) (l : Nat) :
    (votersOn G l true).countP A + (votersOn G l false).countP A =
      Count.total (includedUnder A G) := by
  rw [total_includedUnder]
  induction G with
  | nil => rfl
  | cons g G ih =>
    simp only [votersOn] at ih ⊢
    rw [List.flatMap_cons, List.countP_append, ← ih]
    cases hl : g.1.accepts l <;> simp [hl, List.countP_append] <;> omega

/-- A bound holds if its guard is false or the included voters on one side are as many as those on
the other side. -/
theorem holds_camp {pro con : List String} {guard : Literal String} :
    (camp pro con guard).holds A = true ↔
      (guard.eval A = true → con.countP A ≤ pro.countP A) := by
  have hpro : Term.value A (pro.map fun v => ⟨.pos v, 1⟩) = pro.countP A := by
    rw [Term.value_ones]
    exact List.countP_congr fun v _ => by simp [Literal.eval, Literal.pos]
  have hcon : Term.value A (con.map fun v => ⟨.neg v, 1⟩) + con.countP A = con.length := by
    have hnegate := Term.value_negate A (con.map fun v => ⟨.pos v, 1⟩)
    rw [Term.total_ones, List.map_map, Term.value_ones A Literal.pos] at hnegate
    rw [← hnegate]
    refine congrArg₂ (· + ·) rfl (List.countP_congr fun v _ => ?_)
    simp [Literal.eval, Literal.pos]
  simp only [LowerBound.holds, camp, Option.all_some, Bool.or_eq_true, Bool.not_eq_true',
    decide_eq_true_eq, Term.value_append, hpro]
  cases guard.eval A <;> simp
  omega

/-- The value of a label is not against the strict majority of the included voters. -/
theorem holds_majorityBounds :
    (∀ c ∈ majorityBounds G l, c.holds A = true) ↔
      ∀ b, strictSide ((votersOn G l true).countP A) (Count.total (includedUnder A G)) = some b →
        A (Label.variableName l) = b := by
  rw [Bool.forall_bool, strictSide_eq_some_true, strictSide_eq_some_false, ← countP_votersOn A G l]
  simp only [majorityBounds, List.forall_mem_cons, holds_camp, eval_labelLiteral]
  -- From here on only the numbers of included voters on both sides matter.
  generalize (votersOn G l true).countP A = accepting
  generalize (votersOn G l false).countP A = rejecting
  cases A (Label.variableName l) with
  | true =>
    have hside : rejecting ≤ accepting ↔ accepting + rejecting ≤ 2 * accepting := by omega
    simp [hside]
  | false =>
    have hside : accepting ≤ rejecting ↔ 2 * accepting ≤ accepting + rejecting := by omega
    simp [hside]

/-- An outcome agrees with the majority of some included voters if no value of a label is against
it. -/
theorem agreesWith_majorityOf {included : List Nat} :
    (s.agenda.reading A).agreesWith (s.majorityOf included) = true ↔
      ∀ l ∈ s.agenda.labels, ∀ b,
        strictSide (s.includedSupport included l) (Count.total included) = some b →
          A (Label.variableName l) = b := by
  refine agreesWith_sides.trans (forall₂_congr fun l hl => ?_)
  rw [value?_reading hl]
  simp only [Option.some_inj]

/-- The groups of voters of a scenario with the variables of the voters. -/
def ballots (s : Scenario) : List (JudgmentSet × List String) :=
  votersFrom 0 s.profile

theorem map_fst_ballots : s.ballots.map Prod.fst = s.profile :=
  map_fst_votersFrom 0 s.profile

/-- The bounds hold exactly if the outcome agrees with the majority of the included voters. -/
theorem holds_bounds : (∀ c ∈ s.agenda.labels.flatMap (majorityBounds s.ballots),
      c.holds A = true) ↔
    (s.agenda.reading A).agreesWith (s.majorityOf (includedUnder A s.ballots)) = true := by
  rw [agreesWith_majorityOf, List.forall_mem_flatMap]
  refine forall₂_congr fun l _ => ?_
  rw [holds_majorityBounds, includedSupport_includedUnder map_fst_ballots]

/-- Every voter is included or not. -/
theorem value_excluded (A : Valuation String) :
    (excluded s.ballots).value A + Count.total (includedUnder A s.ballots) =
      voters s.profile := by
  have hnegate := Term.value_negate A
    ((s.ballots.flatMap Prod.snd).map fun v => ⟨.pos v, 1⟩)
  rw [Term.total_ones, Term.value_ones A Literal.pos, List.map_map, ballots,
    length_flatMap_votersFrom] at hnegate
  rw [excluded, Objective.value_sum, total_includedUnder, ← hnegate]
  refine congrArg₂ (· + ·) rfl (List.countP_congr fun v _ => ?_)
  simp [Literal.eval, Literal.pos]

/-! ### The problem -/

theorem Respects.congr (hs : s.WellFormed) (hA : s.Respects A)
    (hwords : ∀ v, IsWord v → A' v = A v)
    (hlabels : ∀ l, A' (Label.variableName l) = A (Label.variableName l)) : s.Respects A' := by
  have heval {f : Formula} (hf : NormalOver s.declared f) : f.eval A' = f.eval A :=
    Formula.eval_congr fun v hv => hwords v (hs.readable hf v hv)
  refine ⟨fun f hf => ?_, fun p hp => ?_⟩
  · rw [heval (hs.outputs f hf), hA.outputs f hf]
  · rw [hlabels, hA.faithful p hp, heval (hs.agenda p.2 (List.of_mem_zip hp).2)]

/-- Any admissible outcome goes together with any choice of how many voters are included. -/
theorem Represents.exists_model_includedUnder (hF : s.Represents F) (hs : s.WellFormed)
    {o : Outcome} {included : List Nat} :
    (∃ A, F.eval A = true ∧ o = s.agenda.reading A ∧ included = includedUnder A s.ballots) ↔
      s.Admissible o ∧ Inclusion s.profile included := by
  constructor
  · rintro ⟨A, hA, rfl, rfl⟩
    exact ⟨(hF.admissible_iff hs).2 ⟨A, hA, rfl⟩, includedUnder_mem A 0 s.profile⟩
  · rintro ⟨ho, hincluded⟩
    obtain ⟨A, hA, rfl⟩ := (Scenario.admissible_iff hs).1 ho
    obtain ⟨A₁, hother, rfl⟩ := exists_includedUnder hincluded 0 A
    -- Enrolling voters changes neither words nor labels, so what is respected stays so.
    have hname {v} (hv : ∀ i k, v ≠ voterName i k) : A₁ v = A v := by
      refine hother v fun hmem => ?_
      obtain ⟨i, k, -, rfl⟩ := exists_voterName hmem
      exact hv i k rfl
    have hlabel (l) : A₁ (Label.variableName l) = A (Label.variableName l) :=
      hname fun i k heq => voterName_ne_variableName heq.symm
    have hrespects : s.Respects A₁ := by
      refine hA.congr hs (fun v hv => hname ?_) hlabel
      rintro i k rfl
      exact IsInternal.not_isWord (.inr (.inr ⟨i, k, rfl⟩)) hv
    obtain ⟨A₂, hagree, hA₂⟩ := hF.exists_model A₁ hrespects
    refine ⟨A₂, hA₂, Agenda.outcomeOf_eq_iff.2 fun l _ => ?_, ?_⟩
    · rw [← hlabel l]
      exact (hagree _ (Label.not_auxiliary_variableName l)).symm
    · refine List.map_congr_left fun g hg => List.countP_congr fun v hv => ?_
      obtain ⟨i, k, -, rfl⟩ := exists_voterName (List.mem_flatMap.2 ⟨g, hg, hv⟩)
      rw [hagree _ (not_auxiliary_voterName i k)]

/-- The problem of the most included voters. -/
def includedProblem (s : Scenario) (F : Cnf String) : OptimizationProblem :=
  ⟨F, s.agenda.labels.flatMap (majorityBounds s.ballots), s.agenda.labelNames,
    [excluded s.ballots]⟩

/-- Who is included under a valuation, and the outcome read off it: the bounds hold if these are an
admissible outcome and a choice of voters whose majority it follows. -/
theorem Represents.exists_feasible (hF : s.Represents F) (hs : s.WellFormed)
    {o : Outcome} {included : List Nat} :
    (∃ A, (s.includedProblem F).feasible A = true ∧ o = s.agenda.reading A ∧
        included = includedUnder A s.ballots) ↔ s.Admissible o ∧ s.Follows included o := by
  have hfeasible (A) : (s.includedProblem F).feasible A = true ↔ F.eval A = true ∧
      (s.agenda.reading A).agreesWith (s.majorityOf (includedUnder A s.ballots)) = true := by
    rw [OptimizationProblem.feasible, Bool.and_eq_true, List.all_eq_true, ← holds_bounds]
    rfl
  rw [Follows, ← and_assoc, ← hF.exists_model_includedUnder hs]
  constructor
  · rintro ⟨A, hA, rfl, rfl⟩
    exact ⟨⟨A, ((hfeasible A).1 hA).1, rfl, rfl⟩, ((hfeasible A).1 hA).2⟩
  · rintro ⟨⟨A, hA, rfl, rfl⟩, hagrees⟩
    exact ⟨A, (hfeasible A).2 ⟨hA, hagrees⟩, rfl, rfl⟩

/-- The outcomes with the fewest excluded voters are those with the most included ones. -/
theorem Represents.optimal_included_iff (hF : s.Represents F) (hs : s.WellFormed)
    (o : Outcome) :
    (∃ A, (s.includedProblem F).Optimal A ∧ o = s.agenda.reading A) ↔
      s.Selects s.Admissible o .young := by
  have hvalues (A A') : List.Lex (· < ·) ((s.includedProblem F).values A')
        ((s.includedProblem F).values A) ↔
      Count.total (includedUnder A s.ballots) < Count.total (includedUnder A' s.ballots) := by
    have hA := s.value_excluded A
    have hA' := s.value_excluded A'
    simp only [includedProblem, OptimizationProblem.values, List.map_cons, List.map_nil,
      lex_singleton]
    omega
  constructor
  · rintro ⟨A, ⟨hA, hoptimal⟩, rfl⟩
    obtain ⟨ho, hfollows⟩ := (hF.exists_feasible hs).1 ⟨A, hA, rfl, rfl⟩
    refine ⟨ho, _, hfollows, fun o' included' ho' hfollows' => ?_⟩
    obtain ⟨A', hA', rfl, rfl⟩ := (hF.exists_feasible hs).2 ⟨ho', hfollows'⟩
    exact Nat.le_of_not_lt ((hvalues A A').not.1 (hoptimal A' hA'))
  · rintro ⟨ho, included, hfollows, hmost⟩
    obtain ⟨A, hA, rfl, rfl⟩ := (hF.exists_feasible hs).2 ⟨ho, hfollows⟩
    refine ⟨A, ⟨hA, fun A' hA' => ?_⟩, rfl⟩
    obtain ⟨ho', hfollows'⟩ := (hF.exists_feasible hs).1 ⟨A', hA', rfl, rfl⟩
    exact (hvalues A A').not.2 (Nat.not_lt.2 (hmost _ _ ho' hfollows'))

theorem length_votersOn (s : Scenario) (l : Nat) :
    (votersOn s.ballots l true).length + (votersOn s.ballots l false).length =
      voters s.profile := by
  have hcount := countP_votersOn (fun _ => true) s.ballots l
  rw [total_includedUnder, List.countP_true] at hcount
  exact hcount.trans (length_flatMap_votersFrom 0 s.profile)

theorem total_camp (pro con : List String) (guard : Literal String) :
    Term.total (camp pro con guard).terms = pro.length + con.length := by
  rw [camp, Term.total_append, Term.total_ones, Term.total_ones]

/-- The sums of the problem are narrow. -/
theorem includedProblem_narrow (h : voters s.profile < 9223372036854775808) :
    (s.includedProblem F).Narrow := by
  constructor
  · intro c hc
    obtain ⟨l, -, hc⟩ := List.mem_flatMap.1 hc
    have hlength := s.length_votersOn l
    refine Term.narrow_of_lt ?_
    rcases List.mem_pair.1 hc with rfl | rfl <;> rw [total_camp] <;> omega
  · refine narrow_sum (Term.narrow_of_lt ?_)
    rwa [Term.total_ones, ballots, length_flatMap_votersFrom]

/-- The problem, if there is room for the terms of the voters. -/
theorem problem_young_eq (hF : s.admissibilityCnf = .ok F) :
    s.problem .young = if voters s.profile ≤ Count.capacity 40 then .ok (s.includedProblem F)
      else .error .fault := by
  rw [problem, admissibilityProblem_eq hF, Result.ok_bind]
  by_cases hroom : voters s.profile ≤ Count.capacity 40
  · rw [if_pos hroom]
    exact if_neg (Nat.not_lt.2 hroom)
  · rw [if_neg hroom]
    exact if_pos (Nat.lt_of_not_le hroom)

/-- The most included voters are the fewest excluded ones. -/
theorem young_expressed (hs : s.WellFormed) (hroom : voters s.profile ≤ Count.capacity 40) :
    ∃ p, s.problem .young = .ok p ∧ s.Expresses .young p := by
  have hcapacity : Count.capacity 40 < 9223372036854775808 := by decide
  obtain ⟨F, hF, hrepresents⟩ := s.admissibilityCnf_spec hs
  exact ⟨s.includedProblem F, (problem_young_eq hF).trans (if_pos hroom), rfl,
    includedProblem_narrow (Nat.lt_of_le_of_lt hroom hcapacity),
    hrepresents.optimal_included_iff hs⟩

/-- Without room for the terms of the voters there is a fault. -/
theorem problem_young_eq_fault (hs : s.WellFormed)
    (hroom : ¬ voters s.profile ≤ Count.capacity 40) : s.problem .young = .error .fault := by
  obtain ⟨F, hF, -⟩ := s.admissibilityCnf_spec hs
  exact (problem_young_eq hF).trans (if_neg hroom)

/-- A problem is that of the most included voters, whatever the conversion of what is admissible. -/
theorem eq_includedProblem {p : OptimizationProblem} (h : s.problem .young = .ok p) :
    ∃ F, p = s.includedProblem F := by
  cases hF : s.admissibilityCnf with
  | error e =>
    rw [problem, admissibilityProblem, hF] at h
    cases h
  | ok F =>
    rw [problem_young_eq hF] at h
    split at h
    · cases h
      exact ⟨F, rfl⟩
    · cases h

end Scenario

end JudgmentAggregation
