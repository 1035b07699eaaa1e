import JudgmentAggregation.Proofs.Rule.Voters
import JudgmentAggregation.Proofs.Rule.Young

/-!
# Voters who are included by a valuation

The problem of Young's rule has a variable for each voter, and different voters have different ones
(`Scenario.name_injective`). So a valuation stands for the set of the voters whose variables are
true (`Scenario.enrolled`), and any set of voters goes together with any values of labels. The
bounds of the problem say that the values of labels heed this set of voters, and what is minimized
is the number of the others (`Scenario.problem_young_exact`).
-/

namespace JudgmentAggregation

/-- Places of a list are counted like its members. -/
theorem ListFacts.card_filter_get {α : Type} {as : List α} {n : Nat} (h : n = as.length)
    (p : α → Bool) :
    (Finset.univ.filter fun i : Fin n => p (as.get (i.cast h)) = true).card = as.countP p := by
  subst h
  have hcount := countP_map_get (List.nodup_finRange as.length) p
  rw [List.map_get_finRange, List.toFinset_finRange] at hcount
  exact hcount.symm

namespace Scenario

variable {s : Scenario} {A : Valuation String} {e : Finset Nat × String} {l : Nat}

/-! ### The roll of the voters -/

/-- The votes of some groups of voters, each with the variable of the voter. -/
def rollOf (G : List (JudgmentSet × List String)) : List (Finset Nat × String) :=
  G.flatMap fun g => g.2.map fun v => (g.1.labels.toFinset, v)

/-- The votes of the voters of a scenario with their variables. -/
def roll (s : Scenario) : List (Finset Nat × String) :=
  rollOf s.ballots

theorem map_snd_rollOf (G : List (JudgmentSet × List String)) :
    (rollOf G).map Prod.snd = G.flatMap Prod.snd := by
  rw [rollOf, List.map_flatMap]
  simp

/-- The enrolled who accept a label are the true variables of those that do. -/
theorem countP_rollOf (A : Valuation String) (G : List (JudgmentSet × List String)) (l : Nat) :
    (rollOf G).countP (fun e => A e.2 && decide (l ∈ e.1)) = (votersOn G l true).countP A := by
  induction G with
  | nil => rfl
  | cons g G ih =>
    rw [rollOf, votersOn] at ih ⊢
    simp only [List.flatMap_cons, List.countP_append, List.countP_map, ih, List.filter_cons,
      Function.comp_def, decide_mem_vote]
    -- All the voters of a group accept the label or reject it.
    cases g.1.accepts l with
    | true => simp
    | false => simp

theorem votersFrom_eq (i : Nat) (js : List JudgmentSet) : votersFrom i js =
    (js.zipIdx i).map fun p => (p.1, (List.range p.1.multiplicity).map (voterName p.2)) := by
  induction js generalizing i with
  | nil => rfl
  | cons j js ih => rw [votersFrom, ih, List.zipIdx_cons, List.map_cons]

theorem roll_eq (s : Scenario) : s.roll = s.profile.zipIdx.flatMap fun p =>
    (List.range p.1.multiplicity).map fun k => (p.1.labels.toFinset, voterName p.2 k) := by
  rw [roll, rollOf, ballots, votersFrom_eq, List.flatMap_map]
  simp only [List.map_map, Function.comp_def]

theorem map_fst_roll (s : Scenario) : s.roll.map Prod.fst = s.votes := by
  have hgroups : s.votes = s.profile.zipIdx.flatMap fun p =>
      List.replicate p.1.multiplicity p.1.labels.toFinset := by
    conv_lhs => rw [votes, ← List.zipIdx_map_fst 0 s.profile, List.flatMap_map]
  rw [hgroups, roll_eq, List.map_flatMap]
  refine List.flatMap_congr fun p _ => ?_
  simp only [List.map_map, Function.comp_def, List.map_const', List.length_range]

/-- The entries of the roll are the voters of the groups. -/
theorem mem_roll : e ∈ s.roll ↔ ∃ i j k, s.profile[i]? = some j ∧ k < j.multiplicity ∧
    e = (j.labels.toFinset, voterName i k) := by
  simp only [roll_eq, List.mem_flatMap, List.mem_map, List.mem_range, Prod.exists,
    List.mem_zipIdx_iff_getElem?]
  grind

/-- No two voters have the same name. -/
theorem nodup_voterNames (i : Nat) (js : List JudgmentSet) :
    ((votersFrom i js).flatMap Prod.snd).Nodup := by
  induction js generalizing i with
  | nil => exact List.nodup_nil
  | cons j js ih =>
    rw [votersFrom, List.flatMap_cons, List.nodup_append']
    refine ⟨List.nodup_range.map fun k k' h => (voterName_injective h).2, ih (i + 1), ?_⟩
    intro v hv hv'
    obtain ⟨k, -, rfl⟩ := List.mem_map.1 hv
    obtain ⟨i', k', hi, heq⟩ := exists_voterName hv'
    have := (voterName_injective heq).1
    omega

/-! ### Voters and valuations -/

theorem length_votes_eq (s : Scenario) : s.votes.length = s.roll.length := by
  rw [← map_fst_roll, List.length_map]

/-- The entry of a voter in the roll. -/
def Voter.entry (v : s.Voter) : Finset Nat × String :=
  s.roll.get (v.cast s.length_votes_eq)

/-- The variable of a voter. -/
def Voter.name (v : s.Voter) : String :=
  v.entry.2

theorem Voter.entry_mem (v : s.Voter) : v.entry ∈ s.roll :=
  s.roll.get_mem _

theorem Voter.accepts_iff (v : s.Voter) : v.Accepts l ↔ l ∈ v.entry.1 := by
  have hvote : s.votes.get v = v.entry.1 := by
    simp [Voter.entry, ← map_fst_roll]
  rw [Voter.Accepts, hvote]

/-- Different voters have different names. -/
theorem name_injective (s : Scenario) : Function.Injective fun v : s.Voter => v.name := by
  intro v v' h
  have hnodup : (s.roll.map Prod.snd).Nodup := by
    rw [roll, map_snd_rollOf]
    exact nodup_voterNames 0 s.profile
  have hentry : v.entry = v'.entry :=
    List.inj_on_of_nodup_map hnodup v.entry_mem v'.entry_mem h
  exact Fin.cast_injective _ ((hnodup.of_map _).injective_get hentry)

/-- The variable of a voter is that of a place in a group that votes alike. -/
theorem Voter.exists_name_eq (v : s.Voter) :
    ∃ i j k, s.profile[i]? = some j ∧ k < j.multiplicity ∧ v.name = voterName i k ∧
      ∀ l, v.Accepts l ↔ j.accepts l = true := by
  obtain ⟨i, j, k, hj, hk, hentry⟩ := mem_roll.1 v.entry_mem
  refine ⟨i, j, k, hj, hk, congrArg Prod.snd hentry, fun l => ?_⟩
  rw [v.accepts_iff, hentry, ← decide_mem_vote, decide_eq_true_eq]

/-- The voters whose variables are true. -/
def enrolled (s : Scenario) (A : Valuation String) : Finset s.Voter :=
  Finset.univ.filter fun v => A v.name = true

/-- The enrolled voters are as many as the valuation includes. -/
theorem card_enrolled (s : Scenario) (A : Valuation String) :
    (s.enrolled A).card = Count.total (includedUnder A s.ballots) := by
  rw [total_includedUnder, ← map_snd_rollOf, List.countP_map]
  exact ListFacts.card_filter_get s.length_votes_eq fun e => A e.2

/-- The enrolled voters who accept a label are as many as the valuation includes of these. -/
theorem card_enrolled_accepting (s : Scenario) (A : Valuation String) (l : Nat) :
    ((s.enrolled A).filter fun v => v.Accepts l).card = (votersOn s.ballots l true).countP A := by
  rw [← countP_rollOf]
  refine Eq.trans ?_ (ListFacts.card_filter_get s.length_votes_eq _)
  rw [enrolled, Finset.filter_filter]
  refine congrArg Finset.card (Finset.filter_congr fun v _ => ?_)
  rw [v.accepts_iff, Bool.and_eq_true, decide_eq_true_eq]
  rfl

/-- Voters can be enrolled as one likes, whatever the values of labels are. -/
theorem exists_enrolled (value : Nat → Bool) (V : Finset s.Voter) :
    ∃ A, (∀ l, A (Label.variableName l) = value l) ∧ s.enrolled A = V := by
  refine ⟨Function.extend Label.variableName value fun x => decide (∃ v ∈ V, v.name = x),
    fun l => Function.Injective.extend_apply (fun _ _ => Label.variableName_injective) .., ?_⟩
  ext v
  -- The variable of a voter is not that of a label.
  have hlabel : ¬ ∃ l, Label.variableName l = v.name := by
    obtain ⟨i, j, k, -, -, hname, -⟩ := v.exists_name_eq
    rintro ⟨l, hl⟩
    exact voterName_ne_variableName (hname.symm.trans hl.symm)
  rw [enrolled, Finset.mem_filter, Function.extend_apply' _ _ _ hlabel, decide_eq_true_eq]
  constructor
  · rintro ⟨-, v', hv', hname⟩
    rwa [← s.name_injective hname]
  · exact fun hv => ⟨Finset.mem_univ v, v, hv, rfl⟩

/-! ### The problem -/

/-- The bounds hold exactly if the values of labels heed the enrolled voters. -/
theorem holds_bounds_iff_heeds :
    (∀ c ∈ s.agenda.labels.flatMap (majorityBounds s.ballots), c.holds A = true) ↔
      s.Heeds (s.enrolled A) (s.agenda.reading A) := by
  rw [List.forall_mem_flatMap]
  refine forall₂_congr fun l hl => ?_
  rw [holds_majorityBounds, side, card_enrolled, card_enrolled_accepting, value?_reading hl]
  simp only [Option.some_inj]

/-- What is minimized is the number of voters who are not enrolled. -/
theorem value_excluded_eq_card (s : Scenario) (A : Valuation String) :
    (excluded s.ballots).value A = (s.enrolled A)ᶜ.card := by
  refine Nat.add_right_cancel ((s.value_excluded A).trans ?_)
  rw [← card_enrolled, Finset.card_compl_add_card, Fintype.card_fin, voters_eq_length]

/-- **The bounds of Young's rule express the majority of the included voters.** Different voters
have different variables, each of them that of a place in a group that votes alike, so that any set
of voters can be included together with any values of the labels. If there is room for the terms of
the voters there is a problem. Its bounds hold exactly if the values of the labels heed the included
voters, and its objective is the number of the others. -/
theorem problem_young_exact (s : Scenario) :
    (Function.Injective fun v : s.Voter => v.name) ∧
    (∀ v : s.Voter, ∃ i j k, s.profile[i]? = some j ∧ k < j.multiplicity ∧
      v.name = voterName i k ∧ ∀ l, v.Accepts l ↔ j.accepts l = true) ∧
    (∀ (value : Nat → Bool) (V : Finset s.Voter),
      ∃ A, (∀ l, A (Label.variableName l) = value l) ∧ s.enrolled A = V) ∧
    (s.WellFormed →
      ((∃ p, s.problem .young = .ok p) ↔ voters s.profile ≤ Count.capacity 40)) ∧
    ∀ p, s.problem .young = .ok p → ∀ A,
      ((∀ c ∈ p.constraints, c.holds A = true) ↔
        s.Heeds (s.enrolled A) (s.agenda.reading A)) ∧
      p.values A = [(s.enrolled A)ᶜ.card] := by
  refine ⟨s.name_injective, Voter.exists_name_eq, exists_enrolled, fun hs => ?_, fun p hp A => ?_⟩
  · obtain ⟨F, hF, -⟩ := s.admissibilityCnf_spec hs
    rw [problem_young_eq hF]
    split
    · next hroom => exact ⟨fun _ => hroom, fun _ => ⟨_, rfl⟩⟩
    · next hroom => exact ⟨fun ⟨_, hfault⟩ => (nomatch hfault), fun h => absurd h hroom⟩
  · obtain ⟨F, rfl⟩ := eq_includedProblem hp
    exact ⟨holds_bounds_iff_heeds, congrArg (· :: []) (s.value_excluded_eq_card A)⟩

/-- Without the last voter the others are tied on the last label, so that the bounds hold when all
the labels are accepted, and one voter is not included. -/
theorem problem_young_exact_panel :
    ∃ p A, panel.problem .young = .ok p ∧ (∀ l, A (Label.variableName l) = true) ∧
      (∀ c ∈ p.constraints, c.holds A = true) ∧ p.values A = [1] := by
  obtain ⟨-, -, hchoice, -, hproblem⟩ := problem_young_exact panel
  obtain ⟨p, hp⟩ : ∃ p, panel.problem .young = .ok p := by
    have hok : (panel.problem .young).isOk = true := by decide +kernel
    cases hp : panel.problem .young with
    | ok p => exact ⟨p, rfl⟩
    | error e => rw [hp] at hok; cases hok
  obtain ⟨A, hA, hV⟩ := hchoice (fun _ => true) (Finset.univ.filter fun v => v.val < 6)
  obtain ⟨hbounds, hvalues⟩ := hproblem p hp A
  rw [hV] at hbounds hvalues
  refine ⟨p, A, hp, hA, hbounds.2 fun l hl b hside => ?_, hvalues.trans (by decide +kernel)⟩
  have htied : ∀ l ∈ panel.agenda.labels, side (Finset.univ.filter fun v : panel.Voter => v.val < 6)
      l ≠ some false := by decide +kernel
  rw [value?_reading hl, hA]
  cases b with
  | true => rfl
  | false => exact absurd hside (htied l hl)

end Scenario

end JudgmentAggregation
