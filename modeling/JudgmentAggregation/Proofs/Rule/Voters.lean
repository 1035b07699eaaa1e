import JudgmentAggregation.Proofs.Rule.Majority
import Mathlib.Data.Fintype.Card
import Mathlib.Data.List.FinRange

/-!
# Individual voters

A group of the profile stands for as many voters as its multiplicity says. The voters of a scenario
are the places in the list of all their votes (`Scenario.Voter`), and a vote is the set of the
labels that are accepted. How many voters of each group are included is all that matters of a set of
voters: it is a sublist of the votes up to the places (`Scenario.exists_voters_iff`), and the voters
of a group can stand for each other. So what Young's rule selects by including some voters of each
group is what it selects by sets of individual voters (`Scenario.select_young_exact`), in whatever
order the inclusions are gone through.
-/

namespace JudgmentAggregation

/-! ### Sets of places -/

namespace ListFacts

variable {α : Type} {as : List α}

theorem countP_map_get {is : List (Fin as.length)} (h : is.Nodup) (p : α → Bool) :
    (is.map as.get).countP p = (is.toFinset.filter fun i => p (as.get i) = true).card := by
  rw [List.countP_map, List.countP_eq_length_filter,
    ← List.toFinset_card_of_nodup (h.filter (p ∘ as.get)), List.toFinset_filter]
  rfl

/-- What can be said of sets of places of a list by counting can be said of sublists. -/
theorem exists_places_iff (as : List α) {P : Nat → ((α → Bool) → Nat) → Prop} :
    (∃ V : Finset (Fin as.length),
        P V.card fun p => (V.filter fun i => p (as.get i) = true).card) ↔
      ∃ sub : List α, sub.Sublist as ∧ P sub.length fun p => sub.countP p := by
  have hcount {is : List (Fin as.length)} (h : is.Nodup) :
      P (is.map as.get).length (fun p => (is.map as.get).countP p) ↔
        P is.toFinset.card fun p => (is.toFinset.filter fun i => p (as.get i) = true).card := by
    rw [List.length_map, List.toFinset_card_of_nodup h, funext (countP_map_get h)]
  have hplaces := List.map_get_finRange as
  constructor
  · rintro ⟨V, hV⟩
    -- The places of the set in their order.
    have hset : ((List.finRange as.length).filter (· ∈ V)).toFinset = V := by
      ext i
      simp
    have hsub : (((List.finRange as.length).filter (· ∈ V)).map as.get).Sublist
        ((List.finRange as.length).map as.get) := List.filter_sublist.map as.get
    rw [hplaces] at hsub
    refine ⟨_, hsub, (hcount ((List.nodup_finRange _).filter _)).2 ?_⟩
    rw [hset]
    exact hV
  · rintro ⟨sub, hsub, h⟩
    rw [← hplaces] at hsub
    obtain ⟨is, his, rfl⟩ := List.sublist_map_iff.1 hsub
    exact ⟨is.toFinset, (hcount (his.nodup (List.nodup_finRange _))).1 h⟩

end ListFacts

namespace Scenario

variable {s : Scenario} {L : Lister} {o : Outcome} {os : List Outcome} {js : List JudgmentSet}
  {l n : Nat} {W : List (Finset Nat)} {included : List Nat}

/-! ### Votes -/

/-- The votes of so many voters of each of some groups. -/
def votesOf (gs : List (JudgmentSet × Nat)) : List (Finset Nat) :=
  gs.flatMap fun g => List.replicate g.2 g.1.labels.toFinset

/-- The votes of the individual voters: for each voter, the set of the labels accepted. -/
def votes (s : Scenario) : List (Finset Nat) :=
  s.profile.flatMap fun j => List.replicate j.multiplicity j.labels.toFinset

theorem length_votesOf (gs : List (JudgmentSet × Nat)) :
    (votesOf gs).length = Count.total (gs.map Prod.snd) := by
  induction gs with
  | nil => rfl
  | cons g gs ih =>
    rw [votesOf, List.flatMap_cons, List.length_append, List.length_replicate, List.map_cons,
      Count.total, ← ih]
    rfl

/-- A vote has the labels that its group accepts. -/
theorem decide_mem_vote (j : JudgmentSet) (l : Nat) :
    decide (l ∈ j.labels.toFinset) = j.accepts l := by
  simp [JudgmentSet.accepts]

theorem countP_votesOf (gs : List (JudgmentSet × Nat)) (l : Nat) :
    (votesOf gs).countP (l ∈ ·) =
      Count.total ((gs.filter fun g => g.1.accepts l).map Prod.snd) := by
  induction gs with
  | nil => rfl
  | cons g gs ih =>
    rw [votesOf, List.flatMap_cons, List.countP_append, List.countP_replicate, decide_mem_vote,
      List.filter_cons]
    rw [votesOf] at ih
    split
    · rw [ih, List.map_cons, Count.total]
    · rw [ih, Nat.zero_add]

theorem length_votesOf_zip (h : Inclusion s.profile included) :
    (votesOf (s.profile.zip included)).length = Count.total included := by
  have hlength := h.length_eq
  rw [length_votesOf, List.map_snd_zip (Nat.le_of_eq hlength.symm)]

theorem countP_votesOf_zip (included : List Nat) (l : Nat) :
    (votesOf (s.profile.zip included)).countP (l ∈ ·) = s.includedSupport included l :=
  countP_votesOf _ l

/-- The votes of everyone are all the votes. -/
theorem votesOf_everyone (s : Scenario) : votesOf (s.profile.zip s.everyone) = s.votes := by
  rw [votesOf, everyone, ← List.map_prod_left_eq_zip, List.flatMap_map]
  rfl

/-- There are as many voters as votes. -/
theorem voters_eq_length (s : Scenario) : voters s.profile = s.votes.length := by
  rw [← votesOf_everyone, length_votesOf_zip s.everyone_mem]
  rfl

/-- The votes of some of the voters are those of so many of each group. -/
theorem sublist_votes_iff :
    W.Sublist (js.flatMap fun j => List.replicate j.multiplicity j.labels.toFinset) ↔
      ∃ included, Inclusion js included ∧ votesOf (js.zip included) = W := by
  induction js generalizing W with
  | nil => simp [Inclusion, votesOf, eq_comm]
  | cons j js ih =>
    rw [List.flatMap_cons, List.sublist_append_iff]
    constructor
    · rintro ⟨W₁, W₂, rfl, hfirst, hrest⟩
      obtain ⟨n, hn, rfl⟩ := List.sublist_replicate_iff.1 hfirst
      obtain ⟨included, hmem, rfl⟩ := ih.1 hrest
      exact ⟨n :: included, .cons hn hmem, rfl⟩
    · rintro ⟨included, hmem, rfl⟩
      obtain ⟨n, ns, hn, hns, rfl⟩ := List.forall₂_cons_left_iff.1 hmem
      exact ⟨_, _, rfl, List.sublist_replicate_iff.2 ⟨n, hn, rfl⟩,
        ih.2 ⟨ns, hns, rfl⟩⟩

/-! ### Sets of voters -/

/-- An individual voter: a place in the list of the votes. -/
abbrev Voter (s : Scenario) : Type :=
  Fin s.votes.length

/-- The voter accepts a label. -/
def Voter.Accepts (v : s.Voter) (l : Nat) : Prop :=
  l ∈ s.votes.get v

instance (l : Nat) : DecidablePred fun v : s.Voter => v.Accepts l :=
  fun v => inferInstanceAs (Decidable (l ∈ s.votes.get v))

/-- The strict majority of a set of voters on a label, if they are not exactly tied. -/
def side (V : Finset s.Voter) (l : Nat) : Option Bool :=
  strictSide (V.filter fun v => v.Accepts l).card V.card

/-- An outcome **heeds** a set of voters when it takes the value of their strict majority on every
label of the agenda on which they are not exactly tied. -/
def Heeds (s : Scenario) (V : Finset s.Voter) (o : Outcome) : Prop :=
  ∀ l ∈ s.agenda.labels, ∀ b, side V l = some b → o.value? l = some b

/-- An outcome is **most heedful** among some outcomes when it heeds a set of voters and none of the
outcomes heeds a greater one. -/
def MostHeedful (s : Scenario) (X : Outcome → Prop) (o : Outcome) : Prop :=
  X o ∧ ∃ V, s.Heeds V o ∧ ∀ o' V', X o' → s.Heeds V' o' → V'.card ≤ V.card

/-- What can be said of a set of voters by counting them can be said by how many voters of each
group are included. -/
theorem exists_voters_iff {P : Nat → (Nat → Nat) → Prop} :
    (∃ V : Finset s.Voter, P V.card fun l => (V.filter fun v => v.Accepts l).card) ↔
      ∃ included, Inclusion s.profile included ∧
        P (Count.total included) (s.includedSupport included) := by
  have hplaces := ListFacts.exists_places_iff s.votes
    (P := fun n count => P n fun l => count (l ∈ ·))
  simp only [decide_eq_true_eq] at hplaces
  refine hplaces.trans ?_
  constructor
  · rintro ⟨W, hsub, h⟩
    obtain ⟨included, hmem, rfl⟩ := sublist_votes_iff.1 hsub
    rw [length_votesOf_zip hmem, funext (countP_votesOf_zip included)] at h
    exact ⟨included, hmem, h⟩
  · rintro ⟨included, hmem, h⟩
    refine ⟨_, sublist_votes_iff.2 ⟨included, hmem, rfl⟩, ?_⟩
    rw [length_votesOf_zip hmem, funext (countP_votesOf_zip included)]
    exact h

/-- An outcome heeds so many voters if it follows the majority of as many included ones. -/
theorem exists_heeds_iff (o : Outcome) (n : Nat) :
    (∃ V, s.Heeds V o ∧ V.card = n) ↔
      ∃ included, s.Follows included o ∧ Count.total included = n := by
  refine (exists_voters_iff (P := fun m support => (∀ l ∈ s.agenda.labels, ∀ b,
    strictSide (support l) m = some b → o.value? l = some b) ∧ m = n)).trans ?_
  refine exists_congr fun included => ?_
  rw [Follows, and_assoc, majorityOf, agreesWith_sides]

/-- Young's rule selects the most heedful outcomes. -/
theorem mostHeedful_iff {X : Outcome → Prop} : s.MostHeedful X o ↔ s.Selects X o .young :=
  and_congr_right fun _ => exists_most_iff exists_heeds_iff o

/-- **Young's rule is about individual voters.** It selects the most heedful of some outcomes
exactly if it has room for the voters of each group. They are found by going through how many voters
of each group are included, whatever the order in which this is done. -/
theorem select_young_exact (hL : L.Correct) (hvoters : voters s.profile < 9223372036854775808)
    (os : List Outcome) :
    ((∃ selected, s.select L .young os = .ok selected ∧ SortedList.Sorted selected ∧
        ∀ o, o ∈ selected ↔ s.MostHeedful (· ∈ os) o) ↔
      ∀ j ∈ s.profile, j.multiplicity < Count.capacity 8) ∧
    ∀ cs : List (List Nat), (∀ c, c ∈ cs ↔ Inclusion s.profile c) →
      ∃ best, s.followIncluded os cs none = .ok best ∧
        ∀ o, o ∈ (best.map Prod.snd).getD [] ↔ s.MostHeedful (· ∈ os) o := by
  simp only [mostHeedful_iff]
  refine ⟨⟨?_, fun hr => ?_⟩, fun cs hcs => followIncluded_selects hvoters hcs⟩
  · rintro ⟨selected, hselected, -⟩
    exact comparable_of_select hL hvoters hselected
  · obtain ⟨best, hbest, hmem⟩ := best_young_spec hL hvoters hr
    obtain ⟨selected, hselected, hsorted, hmem'⟩ := select_of_best hbest
    exact ⟨selected, hselected, hsorted, fun o => (hmem' o).trans (hmem o)⟩

/-- Seven voters in three groups: the majority accepts each of two issues, and rejects that both are
accepted. -/
def panel : Scenario where
  declared := ["a", "b"]
  agenda := ⟨[.atom "a", .atom "b", .and [.atom "a", .atom "b"]]⟩
  inputs := []
  outputs := []
  profile := [⟨3, [.atom "a", .atom "b", .and [.atom "a", .atom "b"]], [1, 2, 3]⟩,
    ⟨2, [.atom "a"], [1]⟩, ⟨2, [.atom "b"], [2]⟩]

/-- Without one voter of the second group or the third, the others are tied on the last label, so
that six voters are heeded by the outcome that accepts all the labels. -/
theorem select_young_exact_panel :
    let o := Outcome.ofPairs [(1, true), (2, true), (3, true)]
    let os := [Outcome.ofPairs [(1, true)], o,
      Outcome.ofPairs [(1, true), (2, false), (3, false)], o]
    voters panel.profile < 9223372036854775808 ∧
      (∀ j ∈ panel.profile, j.multiplicity < Count.capacity 8) ∧
      panel.select .standard .young os = .ok [o] ∧
      ∀ p, p ∈ [o] ↔ panel.MostHeedful (· ∈ os) p := by
  intro o os
  have hvoters : voters panel.profile < 9223372036854775808 := by decide
  have hroom : ∀ j ∈ panel.profile, j.multiplicity < Count.capacity 8 := by decide
  have hselect : panel.select .standard .young os = .ok [o] := by decide +kernel
  obtain ⟨selected, hselected, -, hmem⟩ :=
    (select_young_exact Lister.standard_correct hvoters os).1.2 hroom
  cases hselected.symm.trans hselect
  exact ⟨hvoters, hroom, hselect, hmem⟩

/-- An outcome heeds all the voters of a group that there is no room for, but Young's rule does not
select it. -/
theorem mostHeedful_crowded :
    let o := Outcome.ofPairs [(1, true)]
    crowded.Reachable ∧ voters crowded.profile < 9223372036854775808 ∧
      crowded.MostHeedful (· ∈ [o]) o ∧ crowded.select .standard .young [o] = .error .fault := by
  intro o
  have hagrees : o.agreesWith crowded.majority = true := by decide +kernel
  have hroom : ¬ crowded.Comparable [o] .young := fun h =>
    absurd (h _ List.mem_cons_self) (by decide)
  have ho : o ∈ [o] := List.mem_cons_self
  have hheedful : crowded.MostHeedful (· ∈ [o]) o :=
    mostHeedful_iff.2 ((selects_young_iff ho hagrees).2 ⟨ho, hagrees⟩)
  exact ⟨crowded_reachable, by decide, hheedful,
    select_eq_fault Lister.standard_correct (by decide) hroom⟩

end Scenario

end JudgmentAggregation
