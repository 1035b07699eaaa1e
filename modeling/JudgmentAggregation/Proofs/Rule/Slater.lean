import JudgmentAggregation.Proofs.Rule.Evaluate

/-!
# The search of Slater's rule

Slater's rule looks for outcomes that agree with some choice of strict majority judgments, and tries
smaller and smaller choices until there are some. What it finds first are the outcomes that follow
the greatest number of these judgments (`Scenario.FollowMost`), however the choices are listed
(`Scenario.exists_followMost`). The number of choices has to be counted, though, so that the
rule does so exactly if there are at most 20 judgments, or if some outcome follows all of them and
the smaller choices are not listed (`Scenario.select_slater_exact`).
-/

namespace JudgmentAggregation

namespace Scenario

variable {s : Scenario} {L : Lister} {os selected : List Outcome} {ls : List (Nat × Bool)} {n : Nat}

/-! ### The first choices that some outcomes agree with -/

/-- Some outcomes **reach** a number of judgments when one of them agrees with a choice of as many.
-/
def Reach (os : List Outcome) (ls : List (Nat × Bool)) (n : Nat) : Prop :=
  ∃ sub : List (Nat × Bool), sub.Sublist ls ∧ sub.length = n ∧ ∃ o ∈ os, o.agreesWith sub = true

/-- A number of judgments is reached if an outcome follows as many. -/
theorem reach_iff : Reach os ls n ↔ ∃ o ∈ os, n ≤ o.followed ls := by
  constructor
  · rintro ⟨sub, hsub, hlength, o, ho, hagrees⟩
    exact ⟨o, ho, exists_sublist_iff.1 ⟨sub, hsub, hlength, hagrees⟩⟩
  · rintro ⟨o, ho, hn⟩
    obtain ⟨sub, hsub, hlength, hagrees⟩ := exists_sublist_iff.2 hn
    exact ⟨sub, hsub, hlength, o, ho, hagrees⟩

/-- Some of the outcomes of a list **follow most** judgments: no outcome of the list follows more
than one of them does, and each of them follows just as many as the outcomes reach. -/
structure FollowMost (selected os : List Outcome) (ls : List (Nat × Bool)) : Prop where
  mem_iff : ∀ o, o ∈ selected ↔ o ∈ os ∧ ∀ o' ∈ os, o'.followed ls ≤ o.followed ls
  mem_iff_of_reach : ∀ n, Reach os ls n → (∀ m, n < m → ¬ Reach os ls m) →
    ∀ o, o ∈ selected ↔ o ∈ os ∧ o.followed ls = n

/-- The outcomes that follow the greatest number of judgments follow the most. -/
theorem FollowMost.of_mem_iff
    (hmem : ∀ o, o ∈ selected ↔ o ∈ os ∧ ∀ o' ∈ os, o'.followed ls ≤ o.followed ls) :
    FollowMost selected os ls := by
  refine ⟨hmem, fun n hreach hlast o => ?_⟩
  obtain ⟨a, ha, hn⟩ := reach_iff.1 hreach
  -- No outcome follows more than `n` judgments, and one follows as many.
  have hle {o'} (ho' : o' ∈ os) : o'.followed ls ≤ n :=
    Nat.le_of_not_lt fun hlt => hlast _ hlt (reach_iff.2 ⟨o', ho', Nat.le_refl _⟩)
  rw [hmem]
  constructor
  · rintro ⟨ho, hmost⟩
    exact ⟨ho, Nat.le_antisymm (hle ho) (Nat.le_trans hn (hmost a ha))⟩
  · rintro ⟨ho, rfl⟩
    exact ⟨ho, fun o' ho' => hle ho'⟩

/-- The search finds the outcomes that follow most judgments if all the choices are listed. -/
theorem exists_followMost {choose : Nat → Result (List (List (Nat × Bool)))}
    (hchoose : ∀ n, 0 < n → n ≤ ls.length → ∃ cs, choose n = .ok cs ∧ Lister.AreChoices ls n cs)
    (os : List Outcome) :
    ∃ selected, followMost choose os ls.length = .ok selected ∧ FollowMost selected os ls := by
  obtain ⟨selected, hselected, hmem⟩ := followMost_spec
    (fun o (_ : o ∈ os) => followed_le_length o ls) fun m hm hle _ => hchoose m hm hle
  exact ⟨selected, hselected, .of_mem_iff hmem⟩

/-- **Slater's rule maximizes the majority judgments followed.** It selects the outcomes that follow
most of them exactly if it can count the choices of judgments or need not do so. It searches for
them with a list of the choices of each length, and any other lists of all the choices would make
the search find these outcomes in any case. -/
theorem select_slater_exact (hL : L.Correct) (hvoters : voters s.profile < 9223372036854775808)
    (os : List Outcome) :
    ((∃ selected, s.select L .slater os = .ok selected ∧ SortedList.Sorted selected ∧
        FollowMost selected os s.majority) ↔
      s.majority.length ≤ 20 ∨ ∃ o ∈ os, o.agreesWith s.majority = true) ∧
    s.best L .slater os = followMost (choices L s.majority) os s.majority.length ∧
    ∀ choose : Nat → Result (List (List (Nat × Bool))),
      (∀ n, 0 < n → n ≤ s.majority.length →
        ∃ cs, choose n = .ok cs ∧ Lister.AreChoices s.majority n cs) →
      ∃ selected, followMost choose os s.majority.length = .ok selected ∧
        FollowMost selected os s.majority := by
  refine ⟨⟨?_, fun hr => ?_⟩, best_slater_eq L hvoters os,
    fun choose hchoose => exists_followMost hchoose os⟩
  · rintro ⟨selected, hselected, -⟩
    exact comparable_of_select hL hvoters hselected
  · obtain ⟨best, hbest, hmem⟩ := best_slater_spec hL hvoters hr
    obtain ⟨selected, hselected, hsorted, hmem'⟩ := select_of_best hbest
    exact ⟨selected, hselected, hsorted, .of_mem_iff fun o => (hmem' o).trans (hmem o)⟩

/-- On the dilemma the outcomes that follow most majorities are found among outcomes that have no
value for some labels. -/
theorem select_slater_exact_dilemma :
    let os := [Outcome.ofPairs [(1, true)], Outcome.ofPairs [(2, true), (3, false)],
      Outcome.ofPairs [(1, true), (2, false), (3, false)]]
    voters Strategy.dilemma.profile < 9223372036854775808 ∧
      ∃ selected, Strategy.dilemma.select .standard .slater os = .ok selected ∧
        SortedList.Sorted selected ∧ FollowMost selected os Strategy.dilemma.majority := by
  intro os
  have hvoters : voters Strategy.dilemma.profile < 9223372036854775808 := by decide
  exact ⟨hvoters, (select_slater_exact Lister.standard_correct hvoters os).1.2 (.inl (by decide))⟩

/-- An outcome that follows one of 21 majorities follows most of them where there is no other
outcome, but Slater's rule does not select it. -/
theorem select_slater_disputed :
    let o := Outcome.ofPairs [(1, true)]
    Strategy.disputed.Reachable ∧ voters Strategy.disputed.profile < 9223372036854775808 ∧
      FollowMost [o] [o] Strategy.disputed.majority ∧
      Strategy.disputed.select .standard .slater [o] = .error .fault := by
  intro o
  have hintractable : ¬ Strategy.disputed.Comparable [o] .slater := by
    rintro (hfew | ⟨o', ho', hagrees⟩)
    · have hlength : Strategy.disputed.majority.length = 21 := by decide
      omega
    · revert o'
      decide
  refine ⟨Strategy.disputed_reachable, by decide, .of_mem_iff fun o' => ?_,
    select_eq_fault Lister.standard_correct (by decide) hintractable⟩
  rw [List.mem_singleton]
  constructor
  · rintro rfl
    refine ⟨rfl, fun p hp => Nat.le_of_eq ?_⟩
    rw [List.mem_singleton.1 hp]
  · exact And.left

end Scenario

end JudgmentAggregation
