import JudgmentAggregation.Proofs.Rule.Poll
import JudgmentAggregation.Proofs.Rule.Voters
import JudgmentAggregation.Proofs.Scenario.Invariant

/-!
# Only the votes matter

Two profiles may list their voters in different groups and in another order, and still have the same
votes. The numbers of voters that the rules compare are numbers of votes, so they are the same
(`Scenario.SameVotes.accords_eq`, …). Young's rule includes voters by groups, but the included
voters of one profile have the same votes as some voters of the other one
(`Scenario.SameVotes.exists_inclusion`). So the rules select the same outcomes, as long as there is
room for the groups of both profiles (`Scenario.select_anonymous`).
-/

namespace JudgmentAggregation

namespace Scenario

variable {s s' : Scenario} {L : Lister} {X : Outcome → Prop} {o : Outcome} {os : List Outcome}
  {r : Rule} {included : List Nat}

/-! ### Numbers of votes -/

/-- The support of a label is the number of the votes that accept it. -/
theorem support_eq_countP (s : Scenario) (l : Nat) : s.support l = s.votes.countP (l ∈ ·) := by
  rw [← votesOf_everyone, countP_votesOf_zip, includedSupport_everyone]

/-- The number of labels of an outcome on which a vote differs. -/
def distanceTo (o : Outcome) (vote : Finset Nat) : Nat :=
  o.values.countP fun p => decide (p.1 ∈ vote) != p.2

/-- The groups are as far from an outcome as their voters. -/
theorem mem_distances_iff (hs : ∀ j ∈ s.profile, 0 < j.multiplicity) (o : Outcome) (n : Nat) :
    n ∈ s.profile.map o.distance ↔ n ∈ s.votes.map (distanceTo o) := by
  have hdistance (j : JudgmentSet) : o.distance j = distanceTo o j.labels.toFinset := by
    simp only [Outcome.distance, distanceTo, decide_mem_vote]
  simp only [votes, List.mem_map, List.mem_flatMap, List.mem_replicate]
  constructor
  · rintro ⟨j, hj, rfl⟩
    exact ⟨_, ⟨j, hj, Nat.ne_of_gt (hs j hj), rfl⟩, (hdistance j).symm⟩
  · rintro ⟨_, ⟨j, hj, -, rfl⟩, rfl⟩
    exact ⟨j, hj, hdistance j⟩

/-- No group of a reachable scenario is empty. -/
theorem Reachable.multiplicity_pos (h : s.Reachable) : ∀ j ∈ s.profile, 0 < j.multiplicity :=
  fun j hj => (h.valid.profile j hj).multiplicity

/-! ### The same votes -/

/-- Two scenarios have the **same votes** when they have the same agenda and their individual voters
accept the same labels, in any order and grouped in any way. -/
structure SameVotes (s s' : Scenario) : Prop where
  agenda : s.agenda = s'.agenda
  votes : s.votes.Perm s'.votes

/-- A group can be split into two that accept the same labels. -/
theorem sameVotes_of_split (js ks : List JudgmentSet) {m n : Nat} {accepted : List Formula}
    {labels : List Nat} (hagenda : s.agenda = s'.agenda)
    (hs : s.profile = js ++ ⟨m + n, accepted, labels⟩ :: ks)
    (hs' : s'.profile = js ++ ⟨m, accepted, labels⟩ :: ⟨n, accepted, labels⟩ :: ks) :
    s.SameVotes s' := by
  refine ⟨hagenda, ?_⟩
  rw [votes, votes, hs, hs']
  simp only [List.flatMap_append, List.flatMap_cons]
  rw [← List.append_assoc (List.replicate m _), List.replicate_append_replicate]

namespace SameVotes

variable (h : s.SameVotes s')

include h

theorem symm : s'.SameVotes s :=
  ⟨h.agenda.symm, h.votes.symm⟩

theorem voters_eq : voters s.profile = voters s'.profile := by
  rw [voters_eq_length, voters_eq_length, h.votes.length_eq]

theorem support_eq (l : Nat) : s.support l = s'.support l := by
  rw [support_eq_countP, support_eq_countP, h.votes.countP_eq]

theorem accords_eq (o : Outcome) : s.accords o = s'.accords o := by
  have haccord (l : Nat) : s.accord o l = s'.accord o l := by
    rw [accord, accord, h.support_eq, h.voters_eq]
  rw [accords, accords, h.agenda, funext haccord]

theorem majority_eq : s.majority = s'.majority := by
  rw [majority, majority, h.agenda, h.voters_eq]
  simp only [h.support_eq]

/-- The greatest distance depends on the votes only, where no group is empty. -/
theorem farthestDistance_eq (hs : ∀ j ∈ s.profile, 0 < j.multiplicity)
    (hs' : ∀ j ∈ s'.profile, 0 < j.multiplicity) (o : Outcome) :
    s.farthestDistance o = s'.farthestDistance o := by
  refine Poll.foldl_max_eq_of_mem_iff fun n => ?_
  rw [mem_distances_iff hs, mem_distances_iff hs', (h.votes.map _).mem_iff]

/-- As many voters can be included with the same votes. -/
theorem exists_inclusion (hincluded : Inclusion s.profile included) :
    ∃ included', Inclusion s'.profile included' ∧ Count.total included' = Count.total included ∧
      s'.majorityOf included' = s.majorityOf included := by
  have hsub : (votesOf (s.profile.zip included)).Sublist s.votes :=
    sublist_votes_iff.2 ⟨included, hincluded, rfl⟩
  obtain ⟨W, hperm, hsub'⟩ := List.exists_perm_sublist hsub h.votes
  obtain ⟨included', hincluded', rfl⟩ := sublist_votes_iff.1 hsub'
  have htotal : Count.total included' = Count.total included := by
    rw [← length_votesOf_zip hincluded', hperm.length_eq, length_votesOf_zip hincluded]
  have hsupport (l : Nat) : s'.includedSupport included' l = s.includedSupport included l := by
    rw [← countP_votesOf_zip, hperm.countP_eq, countP_votesOf_zip]
  refine ⟨included', hincluded', htotal, ?_⟩
  rw [majorityOf, majorityOf, h.agenda, htotal]
  simp only [hsupport]

/-- An outcome follows as many voters of one grouping as of the other. -/
theorem exists_follows (hfollows : s.Follows included o) :
    ∃ included', s'.Follows included' o ∧ Count.total included' = Count.total included := by
  obtain ⟨included', hincluded', htotal, hmajority⟩ := h.exists_inclusion hfollows.1
  exact ⟨included', ⟨hincluded', hmajority ▸ hfollows.2⟩, htotal⟩

/-- Which numbers of voters an outcome follows does not depend on the grouping. -/
theorem exists_follows_iff (o : Outcome) (n : Nat) :
    (∃ included, s.Follows included o ∧ Count.total included = n) ↔
      ∃ included, s'.Follows included o ∧ Count.total included = n := by
  constructor
  · rintro ⟨included, hfollows, rfl⟩
    exact h.exists_follows hfollows
  · rintro ⟨included, hfollows, rfl⟩
    exact h.symm.exists_follows hfollows

/-- A rule selects the same outcomes where the votes are the same. -/
theorem selects_iff (hs : ∀ j ∈ s.profile, 0 < j.multiplicity)
    (hs' : ∀ j ∈ s'.profile, 0 < j.multiplicity) :
    s.Selects X o r ↔ s'.Selects X o r := by
  cases r with
  | kemeny | leximax => simp only [Selects, h.accords_eq]
  | maxHamming => simp only [Selects, h.farthestDistance_eq hs hs']
  | slater | majority => simp only [Selects, h.majority_eq]
  | young => exact and_congr_right fun _ => exists_most_iff h.exists_follows_iff o

/-- Only Young's rule needs more room for some ways to group the voters. -/
theorem comparable_iff (hr : r ≠ .young) : s.Comparable os r ↔ s'.Comparable os r := by
  cases r with
  | young => exact absurd rfl hr
  | slater => simp only [Comparable, h.majority_eq]
  | kemeny | leximax | maxHamming | majority => exact Iff.rfl

end SameVotes

/-- **The rules are anonymous.** Where the votes are the same, every rule selects the same list from
a list of outcomes, or there is a fault both times. This holds however the voters are grouped,
except that for Young's rule there must be room for all the groups of both profiles. No group is
empty, as in every reachable scenario. -/
theorem select_anonymous (hL : L.Correct) (hs : ∀ j ∈ s.profile, 0 < j.multiplicity)
    (hs' : ∀ j ∈ s'.profile, 0 < j.multiplicity) (h : s.SameVotes s')
    (hvoters : voters s.profile * (s.agenda.size + 1) < 9223372036854775808) (r : Rule)
    (os : List Outcome) :
    ((∃ selected, s.select L r os = .ok selected ∧ s'.select L r os = .ok selected) ↔
        s.Comparable os r ∧ s'.Comparable os r) ∧
      (r ≠ .young → s.select L r os = s'.select L r os) := by
  have hmoderate := moderate_of_lt hvoters
  have hmoderate' : s'.Moderate := moderate_of_lt (by rwa [← h.voters_eq, ← h.agenda])
  have hselect (hr : s.Comparable os r) (hr' : s'.Comparable os r) :
      s.select L r os = s'.select L r os :=
    select_eq_of_selects_iff hL hL hmoderate hmoderate' hr hr' fun o => h.selects_iff hs hs'
  refine ⟨⟨?_, fun ⟨hr, hr'⟩ => ?_⟩, fun hne => ?_⟩
  · rintro ⟨selected, hselected, hselected'⟩
    exact ⟨comparable_of_select hL hmoderate.voters hselected,
      comparable_of_select hL hmoderate'.voters hselected'⟩
  · obtain ⟨selected, hselected, -⟩ := select_spec hL hmoderate hr
    exact ⟨selected, hselected, hselect hr hr' ▸ hselected⟩
  · by_cases hr : s.Comparable os r
    · exact hselect hr ((h.comparable_iff hne).1 hr)
    · rw [select_eq_fault hL hmoderate.voters hr,
        select_eq_fault hL hmoderate'.voters ((h.comparable_iff hne).not.1 hr)]

/-- The panel with its voters in other groups: the first and the second group are split, and the
groups are listed in another order. -/
def regrouped : Scenario :=
  { panel with
    profile := [⟨2, [.atom "b"], [2]⟩,
      ⟨1, [.atom "a", .atom "b", .and [.atom "a", .atom "b"]], [1, 2, 3]⟩, ⟨1, [.atom "a"], [1]⟩,
      ⟨2, [.atom "a", .atom "b", .and [.atom "a", .atom "b"]], [1, 2, 3]⟩, ⟨1, [.atom "a"], [1]⟩] }

theorem panel_reachable : panel.Reachable :=
  Reachable.empty.build
    [.variable "a", .variable "b", .agenda (.atom "a"), .agenda (.atom "b"),
      .agenda (.and [.atom "a", .atom "b"]),
      .judgment 3 [.atom "a", .atom "b", .and [.atom "a", .atom "b"]], .judgment 2 [.atom "a"],
      .judgment 2 [.atom "b"]]
    (by decide +kernel)

theorem regrouped_reachable : regrouped.Reachable :=
  Reachable.empty.build
    [.variable "a", .variable "b", .agenda (.atom "a"), .agenda (.atom "b"),
      .agenda (.and [.atom "a", .atom "b"]), .judgment 2 [.atom "b"],
      .judgment 1 [.atom "a", .atom "b", .and [.atom "a", .atom "b"]], .judgment 1 [.atom "a"],
      .judgment 2 [.atom "a", .atom "b", .and [.atom "a", .atom "b"]], .judgment 1 [.atom "a"]]
    (by decide +kernel)

/-- Young's rule selects the same outcomes in both profiles, also from outcomes that have no value
for some labels. -/
theorem select_anonymous_panel :
    let os := [Outcome.ofPairs [(1, true)], Outcome.ofPairs [(1, true), (2, true), (3, true)],
      Outcome.ofPairs [(1, true), (2, false), (3, false), (8, true)]]
    panel.Reachable ∧ regrouped.Reachable ∧ (∀ j ∈ panel.profile, 0 < j.multiplicity) ∧
      (∀ j ∈ regrouped.profile, 0 < j.multiplicity) ∧ panel.SameVotes regrouped ∧
      voters panel.profile * (panel.agenda.size + 1) < 9223372036854775808 ∧
      ∃ selected, panel.select .standard .young os = .ok selected ∧
        regrouped.select .standard .young os = .ok selected := by
  intro os
  have hpanel := panel_reachable.multiplicity_pos
  have hregrouped := regrouped_reachable.multiplicity_pos
  have hsame : panel.SameVotes regrouped := ⟨rfl, by decide⟩
  have hvoters : voters panel.profile * (panel.agenda.size + 1) < 9223372036854775808 := by decide
  have hroom : panel.Comparable os .young := by
    show ∀ j ∈ panel.profile, j.multiplicity < Count.capacity 8
    decide
  have hroom' : regrouped.Comparable os .young := by
    show ∀ j ∈ regrouped.profile, j.multiplicity < Count.capacity 8
    decide
  exact ⟨panel_reachable, regrouped_reachable, hpanel, hregrouped, hsame, hvoters,
    (select_anonymous Lister.standard_correct hpanel hregrouped hsame hvoters .young os).1.2
      ⟨hroom, hroom'⟩⟩

/-- The crowded scenario with its group split in two. -/
def halved : Scenario :=
  { crowded with
    profile := [⟨576460752303423488, [.atom "a"], [1]⟩, ⟨576460752303423487, [.atom "a"], [1]⟩] }

theorem halved_reachable : halved.Reachable :=
  Reachable.empty.build
    [.variable "a", .agenda (.atom "a"), .judgment 576460752303423488 [.atom "a"],
      .judgment 576460752303423487 [.atom "a"]]
    (by decide +kernel)

/-- Young's rule has room for the voters in two groups, and no room for the same voters in one. -/
theorem select_young_halved :
    let o := Outcome.ofPairs [(1, true)]
    crowded.Reachable ∧ halved.Reachable ∧ crowded.SameVotes halved ∧
      voters crowded.profile * (crowded.agenda.size + 1) < 9223372036854775808 ∧
      crowded.select .standard .young [o] = .error .fault ∧
      halved.select .standard .young [o] = .ok [o] := by
  intro o
  have hsame : crowded.SameVotes halved := sameVotes_of_split [] [] rfl rfl rfl
  have hcrowded : ¬ crowded.Comparable [o] .young := fun h =>
    absurd (h _ List.mem_cons_self) (by decide)
  have hhalved : halved.Comparable [o] .young := by
    show ∀ j ∈ halved.profile, j.multiplicity < Count.capacity 8
    decide
  have hvoters : voters halved.profile * (halved.agenda.size + 1) < 9223372036854775808 := by decide
  obtain ⟨selected, hselected, hsorted, hmem⟩ := select_spec Lister.standard_correct
    (moderate_of_lt hvoters) hhalved
  -- The only outcome follows the majority of all the voters.
  have hagrees : o.agreesWith halved.majority = true := by decide +kernel
  have heq : selected = [o] := by
    refine SortedList.eq_of_mem_iff hsorted (List.pairwise_singleton _ _) fun p => ?_
    rw [hmem, selects_young_iff List.mem_cons_self hagrees, and_iff_left_of_imp]
    intro hp
    rwa [List.mem_singleton.1 hp]
  rw [heq] at hselected
  exact ⟨crowded_reachable, halved_reachable, hsame, by decide,
    select_eq_fault Lister.standard_correct (by decide) hcrowded, hselected⟩

end Scenario

end JudgmentAggregation
