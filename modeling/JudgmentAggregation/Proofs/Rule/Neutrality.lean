import JudgmentAggregation.Proofs.Rule.Evaluate
import JudgmentAggregation.Proofs.Rule.Majority
import JudgmentAggregation.Proofs.Rule.Poll
import JudgmentAggregation.Proofs.Scenario.Invariant

/-!
# The order of the agenda does not matter

The label of a formula is its place in the agenda. Where the agenda has no formula twice, what a
scenario says of a label is what its poll says of the formula, so that a rule selects the outcome of
a valuation exactly if it selects the valuation in the poll (`Scenario.selects_outcome_iff`). The
values that an outcome gives to the formulas are those of the valuation, in the order of the
formulas (`Agenda.mem_formulaValues`). So scenarios that differ in the order of the agenda and of
the profile have the same selections, seen as values of formulas (`Strategy.evaluate_neutral`).
-/

namespace JudgmentAggregation

/-! ### Values of formulas -/

namespace Agenda

variable {a : Agenda} {A : Valuation String} {f : Formula} {b : Bool}

/-- The outcome of a valuation gives the formulas the values that they have under it. -/
theorem mem_formulaValues (hnodup : a.formulas.Nodup) :
    (f, b) ∈ (a.outcome A).formulaValues a ↔ f ∈ a.formulas ∧ f.eval A = b := by
  have hpairs : (a.outcome A).values.filterMap (fun p => (a.get? p.1).map fun f => (f, p.2)) =
      a.formulas.map fun f => (f, f.eval A) := by
    rw [values_outcome, List.filterMap_map, ← map_snd_entries, List.map_map,
      ← List.filterMap_eq_map]
    refine List.filterMap_congr fun p hp => ?_
    rw [Function.comp_apply, mem_entries.1 hp]
    rfl
  have hkeys : (a.formulas.map fun f => (f, f.eval A)).Pairwise fun p q => p.1 ≠ q.1 :=
    List.pairwise_map.2 hnodup
  rw [Outcome.formulaValues, hpairs, SortedList.mem_ofPairs hkeys, List.mem_map]
  simp

/-- The values of the formulas do not depend on their order. -/
theorem formulaValues_outcome_eq {a' : Agenda} (h : a.formulas.Perm a'.formulas)
    (hnodup : a.formulas.Nodup) (A : Valuation String) :
    (a.outcome A).formulaValues a = (a'.outcome A).formulaValues a' := by
  refine SortedList.eq_of_pair_mem_iff (SortedList.sorted_ofPairs _) (SortedList.sorted_ofPairs _)
    fun ⟨f, b⟩ => ?_
  exact (mem_formulaValues hnodup).trans
    ((and_congr_left' h.mem_iff).trans (mem_formulaValues (h.nodup_iff.1 hnodup)).symm)

end Agenda

namespace Scenario

variable {s s' : Scenario} {A : Valuation String} {f : Formula} {l : Nat} {included : List Nat}
  {r : Rule}

/-! ### The poll of a scenario -/

/-- The valuations that satisfy the output constraints. -/
def Permits (s : Scenario) (A : Valuation String) : Prop :=
  ∀ f ∈ s.outputs, f.eval A = true

/-- The poll of a scenario. -/
def poll (s : Scenario) : Poll :=
  ⟨s.agenda.formulas, s.profile.map fun j => (j.multiplicity, j.accepted)⟩

/-- The poll among some included voters. -/
def pollOf (s : Scenario) (included : List Nat) : Poll :=
  ⟨s.agenda.formulas, (s.profile.zip included).map fun p => (p.2, p.1.accepted)⟩

/-- The poll of everyone is the poll of the scenario. -/
theorem pollOf_everyone (s : Scenario) : s.pollOf s.everyone = s.poll := by
  rw [pollOf, everyone, ← List.map_prod_left_eq_zip, List.map_map]
  rfl

/-- The poll has the voters of the scenario. -/
theorem voters_poll (s : Scenario) : s.poll.voters = voters s.profile := by
  rw [Poll.voters, poll, List.map_map]
  rfl

/-- The groups of the polls among some of the voters are those that include some of each group. -/
theorem exists_groups_iff {js : List JudgmentSet} {groups : List (Nat × List Formula)} :
    (∃ included, Inclusion js included ∧
        (js.zip included).map (fun p => (p.2, p.1.accepted)) = groups) ↔
      List.Forall₂ (fun j g => g.1 ≤ j.multiplicity ∧ g.2 = j.accepted) js groups := by
  constructor
  · rintro ⟨included, hmem, rfl⟩
    rw [Inclusion] at hmem
    induction hmem with
    | nil => exact .nil
    | cons hle _ ih => exact .cons ⟨hle, rfl⟩ ih
  · intro h
    induction h with
    | nil => exact ⟨[], .nil, rfl⟩
    | @cons j g _ _ hg _ ih =>
      obtain ⟨hle, haccepted⟩ := hg
      obtain ⟨included, hmem, rfl⟩ := ih
      refine ⟨g.1 :: included, .cons hle hmem, ?_⟩
      rw [List.zip_cons_cons, List.map_cons, ← haccepted]

/-- The parts of a poll are the polls of the voters that can be included. -/
theorem part_poll_iff {q : Poll} :
    q.Part s.poll ↔ ∃ included, Inclusion s.profile included ∧ s.pollOf included = q := by
  constructor
  · obtain ⟨formulas, groups⟩ := q
    rintro ⟨rfl, hgroups⟩
    obtain ⟨included, hmem, rfl⟩ := exists_groups_iff.2 (List.forall₂_map_left_iff.1 hgroups)
    exact ⟨included, hmem, rfl⟩
  · rintro ⟨included, hmem, rfl⟩
    exact ⟨rfl, List.forall₂_map_left_iff.2 (exists_groups_iff.1 ⟨included, hmem, rfl⟩)⟩

/-- A poll has the voters that it includes. -/
theorem voters_pollOf (h : Inclusion s.profile included) :
    (s.pollOf included).voters = Count.total included := by
  have hlength := h.length_eq
  rw [Poll.voters, pollOf, List.map_map]
  exact congrArg Count.total (List.map_snd_zip (Nat.le_of_eq hlength.symm))

section Labels

variable (hs : s.Valid)

include hs

/-- A label is accepted where its formula is. -/
theorem accepts_eq (hl : s.agenda.get? l = some f) {j : JudgmentSet} (hj : j ∈ s.profile) :
    j.accepts l = j.accepted.contains f := by
  rw [Bool.eq_iff_iff, (hs.profile j hj).on.accepts_iff hs.nodup hl, List.contains_iff_mem]

/-- The support of a label is that of its formula in the poll. -/
theorem includedSupport_eq (hl : s.agenda.get? l = some f) (included : List Nat) :
    s.includedSupport included l = (s.pollOf included).support f := by
  rw [includedSupport, Poll.support, pollOf, List.filter_map, List.map_map]
  congr 2
  exact List.filter_congr fun p hp => accepts_eq hs hl (List.of_mem_zip hp).1

theorem support_eq (hl : s.agenda.get? l = some f) : s.support l = s.poll.support f := by
  rw [← includedSupport_everyone, ← pollOf_everyone, includedSupport_eq hs hl]

/-- The agreements with the outcome of a valuation are those with the valuation in the poll. -/
theorem accords_outcome (A : Valuation String) :
    s.accords (s.agenda.outcome A) = s.poll.accords A := by
  refine Agenda.map_labels fun l f hl => ?_
  rw [accord, Poll.accord, Agenda.value?_outcome hl, support_eq hs hl, voters_poll]
  simp only [Option.some.injEq]

section Included

variable (hincluded : Inclusion s.profile included)

include hincluded

/-- The strict majority on a label is the one on its formula. -/
theorem strictSide_eq (hl : s.agenda.get? l = some f) :
    strictSide (s.includedSupport included l) (Count.total included) =
      strictSide ((s.pollOf included).support f) (s.pollOf included).voters := by
  rw [includedSupport_eq hs hl, voters_pollOf hincluded]

/-- The outcome of a valuation follows as many majorities of some voters as the valuation does in
their poll. -/
theorem followed_outcome (A : Valuation String) :
    (s.agenda.outcome A).followed (s.majorityOf included) = (s.pollOf included).followed A := by
  rw [Outcome.followed, majorityOf, Poll.followed, Poll.majority, List.countP_filterMap,
    List.countP_filterMap]
  refine Agenda.countP_labels fun l f hl => ?_
  rw [strictSide_eq hs hincluded hl, Option.map_map, Option.map_map]
  simp only [Function.comp_def, Agenda.value?_outcome hl, Option.some_beq_some]

theorem length_majorityOf :
    (s.majorityOf included).length = (s.pollOf included).majority.length := by
  rw [majorityOf, Poll.majority, List.length_filterMap_eq_countP, List.length_filterMap_eq_countP]
  refine Agenda.countP_labels fun l f hl => ?_
  rw [strictSide_eq hs hincluded hl, Option.isSome_map, Option.isSome_map]

/-- The outcome of a valuation agrees with the majorities of some voters exactly if the valuation
follows them in their poll. -/
theorem agreesWith_outcome :
    (s.agenda.outcome A).agreesWith (s.majorityOf included) = true ↔
      (s.pollOf included).FollowsAll A := by
  rw [← followed_eq_length_iff, followed_outcome hs hincluded, length_majorityOf hs hincluded]
  rfl

end Included

theorem followed_majority_outcome (A : Valuation String) :
    (s.agenda.outcome A).followed s.majority = s.poll.followed A := by
  rw [← majorityOf_everyone, followed_outcome hs s.everyone_mem, pollOf_everyone]

theorem length_majority : s.majority.length = s.poll.majority.length := by
  rw [← majorityOf_everyone, length_majorityOf hs s.everyone_mem, pollOf_everyone]

theorem agreesWith_majority_outcome :
    (s.agenda.outcome A).agreesWith s.majority = true ↔ s.poll.FollowsAll A := by
  rw [← majorityOf_everyone, agreesWith_outcome hs s.everyone_mem, pollOf_everyone]

/-- The distances of the outcome of a valuation are those of the valuation in the poll. -/
theorem farthestDistance_outcome (A : Valuation String) :
    s.farthestDistance (s.agenda.outcome A) = s.poll.farthest A := by
  rw [farthestDistance, Poll.farthest, poll, List.map_map]
  congr 1
  refine List.map_congr_left fun j hj => ?_
  rw [Outcome.distance, Agenda.values_outcome, Function.comp_apply, Poll.distance,
    ← Agenda.map_snd_entries, List.countP_map, List.countP_map]
  refine List.countP_congr fun p hp => ?_
  simp only [Function.comp_apply, accepts_eq hs (Agenda.mem_entries.1 hp) hj]

/-- Young's rule selects an outcome exactly if it selects its valuation in the poll. -/
theorem selects_young_outcome_iff (hA : s.Permits A) :
    s.Selects s.Admissible (s.agenda.outcome A) .young ↔
      s.poll.Selects s.Permits A .young := by
  constructor
  · rintro ⟨-, included, ⟨hmem, hagrees⟩, hmost⟩
    refine ⟨s.pollOf included, part_poll_iff.2 ⟨included, hmem, rfl⟩,
      (agreesWith_outcome hs hmem).1 hagrees, fun A' q' hA' hq' hfollows => ?_⟩
    obtain ⟨included', hmem', rfl⟩ := part_poll_iff.1 hq'
    rw [voters_pollOf hmem, voters_pollOf hmem']
    exact hmost _ included' ⟨A', hA', rfl⟩ ⟨hmem', (agreesWith_outcome hs hmem').2 hfollows⟩
  · rintro ⟨q, hq, hfollows, hmost⟩
    obtain ⟨included, hmem, rfl⟩ := part_poll_iff.1 hq
    refine ⟨⟨A, hA, rfl⟩, included, ⟨hmem, (agreesWith_outcome hs hmem).2 hfollows⟩, ?_⟩
    rintro _ included' ⟨A', hA', rfl⟩ ⟨hmem', hagrees⟩
    rw [← voters_pollOf hmem, ← voters_pollOf hmem']
    exact hmost A' _ hA' (part_poll_iff.2 ⟨included', hmem', rfl⟩)
      ((agreesWith_outcome hs hmem').1 hagrees)

/-- A rule selects the outcome of a valuation among the admissible ones exactly if it selects the
valuation among those that satisfy the output constraints. -/
theorem selects_outcome_iff (hA : s.Permits A) :
    s.Selects s.Admissible (s.agenda.outcome A) r ↔
      s.poll.Selects s.Permits A r := by
  have hadmissible : s.Admissible (s.agenda.outcome A) := ⟨A, hA, rfl⟩
  have hforall {P : Outcome → Prop} : (∀ o, s.Admissible o → P o) ↔
      ∀ A, s.Permits A → P (s.agenda.outcome A) :=
    ⟨fun h A hA => h _ ⟨A, hA, rfl⟩, fun h o ⟨A, hA, ho⟩ => ho ▸ h A hA⟩
  cases r with
  | kemeny =>
    simp only [Selects, Poll.Selects, hadmissible, true_and, hforall, accords_outcome hs]
  | leximax =>
    simp only [Selects, Poll.Selects, hadmissible, true_and, hforall, accords_outcome hs]
  | maxHamming =>
    simp only [Selects, Poll.Selects, hadmissible, true_and, hforall, farthestDistance_outcome hs]
  | slater =>
    simp only [Selects, Poll.Selects, hadmissible, true_and, hforall, followed_majority_outcome hs]
  | majority =>
    simp only [Selects, Poll.Selects, hadmissible, true_and, agreesWith_majority_outcome hs]
  | young => exact selects_young_outcome_iff hs hA

/-- The values of the formulas in the outcomes that a rule selects. -/
theorem mem_values_iff {os : List Outcome} (hos : ∀ o, o ∈ os ↔ s.Selects s.Admissible o r)
    {v : List (Formula × Bool)} :
    v ∈ os.map (·.formulaValues s.agenda) ↔ ∃ A, s.Permits A ∧ s.poll.Selects s.Permits A r ∧
      v = (s.agenda.outcome A).formulaValues s.agenda := by
  rw [List.mem_map]
  constructor
  · rintro ⟨o, ho, rfl⟩
    have hselects := (hos o).1 ho
    obtain ⟨A, hA, rfl⟩ := hselects.mem
    exact ⟨A, hA, (selects_outcome_iff hs hA).1 hselects, rfl⟩
  · rintro ⟨A, hA, hselects, rfl⟩
    exact ⟨_, (hos _).2 ((selects_outcome_iff hs hA).2 hselects), rfl⟩

end Labels

/-! ### Rearranged scenarios -/

/-- A scenario is **rearranged** when the formulas of the agenda and the groups of the profile are
listed in another order. The output constraints are the same formulas. -/
structure Rearranged (s s' : Scenario) : Prop where
  outputs : ∀ f, f ∈ s.outputs ↔ f ∈ s'.outputs
  agenda : s.agenda.formulas.Perm s'.agenda.formulas
  profile : (s.profile.map fun j => (j.multiplicity, j.accepted)).Perm
    (s'.profile.map fun j => (j.multiplicity, j.accepted))

namespace Rearranged

variable (h : s.Rearranged s')

include h

theorem symm : s'.Rearranged s :=
  ⟨fun f => (h.outputs f).symm, h.agenda.symm, h.profile.symm⟩

/-- The polls of rearranged scenarios are alike. -/
theorem alike : s.poll.Alike s'.poll :=
  ⟨h.agenda, h.profile⟩

/-- Rearranged scenarios permit the same valuations. -/
theorem permits (hA : s.Permits A) : s'.Permits A :=
  fun f hf => hA f ((h.outputs f).2 hf)

theorem size_eq : s.agenda.size = s'.agenda.size :=
  h.agenda.length_eq

theorem voters_eq : voters s.profile = voters s'.profile := by
  rw [← voters_poll, ← voters_poll, h.alike.voters_eq]

/-- Rearranged scenarios have groups of the same sizes. -/
theorem forall_multiplicity {P : Nat → Prop} (hP : ∀ j ∈ s.profile, P j.multiplicity) :
    ∀ j ∈ s'.profile, P j.multiplicity := by
  intro j hj
  obtain ⟨j', hj', heq⟩ := List.mem_map.1 (h.profile.mem_iff.2 (List.mem_map_of_mem hj))
  have hmultiplicity : j'.multiplicity = j.multiplicity := congrArg Prod.fst heq
  exact hmultiplicity ▸ hP j' hj'

/-- A strategy that has room for a rule on a scenario has room for it on a rearranged one. -/
theorem tractable (hs : s.Valid) (hs' : s'.Valid) {strategy : Strategy}
    (hr : s.Tractable strategy r) : s'.Tractable strategy r := by
  cases strategy with
  | bruteForce =>
    cases r with
    | slater =>
      refine hr.imp (fun hfew => ?_) ?_
      · rwa [length_majority hs', ← h.alike.majority_perm.length_eq, ← length_majority hs]
      · rintro ⟨o, ⟨A, hA, rfl⟩, hagrees⟩
        exact ⟨_, ⟨A, h.permits hA, rfl⟩, (agreesWith_majority_outcome hs').2
          (h.alike.followsAll_iff.1 ((agreesWith_majority_outcome hs).1 hagrees))⟩
    | young => exact h.forall_multiplicity (P := (· < Count.capacity 8)) hr
    | kemeny | leximax | maxHamming | majority => trivial
  | optimization =>
    cases r with
    | young => exact Nat.le_trans (Nat.le_of_eq h.voters_eq.symm) hr
    | kemeny | leximax | maxHamming | majority | slater => trivial

/-- The values of formulas that are selected on a scenario are selected on a rearranged one. -/
theorem mem_values (hs : s.Valid) (hs' : s'.Valid) {os os' : List Outcome}
    (hos : ∀ o, o ∈ os ↔ s.Selects s.Admissible o r)
    (hos' : ∀ o, o ∈ os' ↔ s'.Selects s'.Admissible o r) {v : List (Formula × Bool)}
    (hv : v ∈ os.map (·.formulaValues s.agenda)) : v ∈ os'.map (·.formulaValues s'.agenda) := by
  obtain ⟨A, hA, hselects, rfl⟩ := (mem_values_iff hs hos).1 hv
  exact (mem_values_iff hs' hos').2 ⟨A, h.permits hA,
    h.alike.selects (fun _ => h.symm.permits) hselects,
    Agenda.formulaValues_outcome_eq h.agenda hs.nodup A⟩

end Rearranged

end Scenario

namespace Strategy

variable {γ γ' : Type} {B : Backend γ} {B' : Backend γ'} {E E' : BoundEncoder} {L L' : Lister}
  {s s' : Scenario} {strategy : Strategy} {r : Rule}

/-- The dilemma with the conjunction listed first, and with the voters in another order. -/
def shuffled : Scenario where
  declared := ["a", "b"]
  agenda := ⟨[.and [.atom "a", .atom "b"], .atom "b", .atom "a"]⟩
  inputs := []
  outputs := []
  profile := [⟨1, [.atom "b"], [2]⟩, ⟨1, [.atom "a"], [3]⟩,
    ⟨1, [.atom "a", .atom "b", .and [.atom "a", .atom "b"]], [1, 2, 3]⟩]

theorem shuffled_reachable : shuffled.Reachable :=
  Scenario.Reachable.empty.build
    [.variable "a", .variable "b", .agenda (.and [.atom "a", .atom "b"]), .agenda (.atom "b"),
      .agenda (.atom "a"), .judgment 1 [.atom "b"], .judgment 1 [.atom "a"],
      .judgment 1 [.atom "a", .atom "b", .and [.atom "a", .atom "b"]]]
    (by decide +kernel)

theorem dilemma_rearranged : dilemma.Rearranged shuffled where
  outputs _ := Iff.rfl
  agenda := by decide
  profile := by decide

end Strategy

end JudgmentAggregation
