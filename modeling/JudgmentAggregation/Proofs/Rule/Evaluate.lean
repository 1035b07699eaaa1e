import JudgmentAggregation.Proofs.Bound.Threshold
import JudgmentAggregation.Proofs.Outcome.Order
import JudgmentAggregation.Proofs.Rule.Leximax
import JudgmentAggregation.Proofs.Rule.Young
import JudgmentAggregation.Proofs.Scenario.Change
import JudgmentAggregation.Rule.Evaluate

/-!
# The strategies agree

Where a strategy has room for what it counts (`Scenario.Tractable`), it gives in order the
admissible outcomes that the rule selects (`Strategy.evaluate_spec`); elsewhere there is a fault
(`Strategy.evaluate_eq_fault`). A sorted list is known by its members, so that the result depends
neither on the strategy nor on the backend: the strategies agree on a rule exactly if both have room
for it (`Strategy.agree_iff`). The only rules for which room can be lacking are Slater's rule, since
brute force counts the choices of judgments by means of a factorial, and Young's rule, since both
strategies list the voters.

Optimization gives this result in the runs in which the variables that the encoder uses fit signed
32-bit words (`Run.Fits`). Brute force encodes nothing, so that all its runs are such
(`Strategy.bruteForce_fits`), and so are those that end for want of room
(`Strategy.fits_of_not_tractable`).
-/

namespace JudgmentAggregation

namespace Scenario

/-- A strategy has **room** for a rule on a scenario. Brute force takes the factorial of the number
of strict majorities for Slater's rule, unless some admissible outcome follows all of them. For
Young's rule the voters are listed: by brute force the numbers of those of a group that can be
included, in 8 bytes each, and by optimization a term for each of all the voters, in 40 bytes. -/
def Tractable (s : Scenario) : Strategy → Rule → Prop
  | .bruteForce, .slater => s.majority.length ≤ 20 ∨
      ∃ o, s.Admissible o ∧ o.agreesWith s.majority = true
  | .bruteForce, .young => ∀ j ∈ s.profile, j.multiplicity < Count.capacity 8
  | .optimization, .young => voters s.profile ≤ Count.capacity 40
  | _, _ => True

variable {s : Scenario} {os : List Outcome} {r : Rule}

/-- The outcomes can be compared if brute force has room. -/
theorem comparable_iff (hos : ∀ o, o ∈ os ↔ s.Admissible o) :
    s.Comparable os r ↔ s.Tractable .bruteForce r := by
  cases r with
  | slater =>
    refine or_congr_right (exists_congr fun o => ?_)
    rw [hos]
  | young => exact Iff.rfl
  | kemeny | leximax | maxHamming | majority => exact Iff.rfl

/-- Every rule for which optimization has room is expressed by its problem. -/
theorem exists_expresses (hs : s.WellFormed) (hsize : s.agenda.size < 9223372036854775808)
    (hmoderate : s.Moderate)
    (hr : s.Tractable .optimization r) : ∃ p, s.problem r = .ok p ∧ s.Expresses r p := by
  cases r with
  | kemeny => exact kemeny_expressed hs hmoderate
  | leximax => exact leximax_expressed hs hsize hmoderate.voters
  | young => exact young_expressed hs hr
  | slater => exact slater_expressed hs hsize hmoderate.voters
  | majority => exact majority_expressed hs hmoderate.voters
  | maxHamming => exact maxHamming_expressed hs hsize

/-- Without room there is no problem for a rule. -/
theorem problem_eq_fault (hs : s.WellFormed) (hr : ¬ s.Tractable .optimization r) :
    s.problem r = .error .fault := by
  cases r with
  | young => exact problem_young_eq_fault hs hr
  | kemeny | leximax | slater | majority | maxHamming => exact (hr trivial).elim

end Scenario

namespace Strategy

variable {γ : Type} {B : Backend γ} {E : BoundEncoder} {L : Lister} {s : Scenario}
  {strategy : Strategy} {r : Rule}

/-- A selection ends in its result, whether or not the number of outcomes is told. -/
theorem ends_select (s : Scenario) (L : Lister) (r : Rule) (os : List Outcome) (σ : Session γ) :
    ∃ σ', Run.Ends (do
      let selected ← Run.ofResult (s.select L r os)
      Run.record (.outcomesSelected r selected.length)
      return selected) σ (s.select L r os) σ' := by
  cases hselect : s.select L r os with
  | ok selected =>
    exact ⟨_, (Run.ends_ok rfl σ).bind ((Run.ends_record _ σ).bind (Run.ends_pure selected _))⟩
  | error e => exact ⟨σ, (Run.ends_ofResult (.error e) σ).bind_error⟩

/-- Brute force tells of no numbers. -/
theorem bruteForce_fits (B : Backend γ) (E : BoundEncoder) (L : Lister) (r : Rule) (s : Scenario)
    (σ : Session γ) : (bruteForce.evaluate B E L r s).Fits σ := by
  refine Run.Tells.fits ?_ σ
  exact (Run.tells_record trivial).bind fun _ => (Run.tells_ofResult _).bind fun e =>
    ((Outcome.listAll_tells (fun _ => trivial) B e).inContext _).bind fun _ =>
      (Run.tells_record trivial).bind fun _ => (Run.tells_ofResult _).bind fun _ =>
        (Run.tells_record trivial).bind fun _ => Run.tells_pure _

/-- Without room, optimization ends where it would write the problem down. -/
theorem optimize_eq_fault (hs : s.WellFormed) (hr : ¬ s.Tractable .optimization r)
    (σ : Session γ) :
    (optimize B E r s).Ends σ (.error .fault) ⟨σ.memory, .optimizing r :: σ.events⟩ := by
  have hproblem (σ : Session γ) : ((Run.ofResult (s.problem r)).inContext (.encodingRule r)).Ends
      σ (.error .fault) σ := by
    rw [Scenario.problem_eq_fault hs hr]
    exact (Run.ends_ofResult _ σ).inContext (.encodingRule r)
  exact (Run.ends_record _ σ).bind (hproblem _).bind_error

/-- Without room, a strategy ends before there are any numbers to tell of. -/
theorem fits_of_not_tractable (hs : s.WellFormed) (hr : ¬ s.Tractable strategy r)
    (B : Backend γ) (E : BoundEncoder) (L : Lister) (σ : Session γ) :
    (strategy.evaluate B E L r s).Fits σ := by
  cases strategy with
  | bruteForce => exact bruteForce_fits B E L r s σ
  | optimization =>
    refine (optimize_eq_fault hs hr σ).fits_iff.2 ?_
    rw [Session.since_eq (rfl : _ = [Event.optimizing r] ++ _)]
    exact List.forall_mem_singleton.2 trivial

section Backend

variable (hs : s.WellFormed) (hsound : B.Sound) (hcomplete : B.Complete)

include hs hsound hcomplete

/-- Brute force lists all the admissible outcomes, in some order, and selects among them. -/
theorem compareAll_ends (hsize : s.agenda.size < Count.limit) (L : Lister) (r : Rule)
    (σ : Session γ) :
    ∃ os σ', (∀ o, o ∈ os ↔ s.Admissible o) ∧
      (compareAll B L r s).Ends σ (s.select L r os) σ' := by
  obtain ⟨F, hF, hrepresents⟩ := s.admissibilityCnf_spec hs
  have hadmissible : s.admissible = .ok (.ofCnf F s.agenda.labelNames) := by
    rw [Scenario.admissible, hF]
    rfl
  obtain ⟨ms, -, ⟨σ₁, hlist⟩, -, hmem⟩ := Outcome.exists_lists hsound hcomplete hsize
    (Enumerator.remaining_ofCnf_iff F s.agenda.labelNames)
    { σ with events := .comparingOutcomes r :: σ.events }
  obtain ⟨σ', hends⟩ := ends_select s L r (ms.map Outcome.ofModel)
    { σ₁ with events := .admissibleFound (ms.map Outcome.ofModel).length :: σ₁.events }
  refine ⟨ms.map Outcome.ofModel, σ', fun o => ?_, ?_⟩
  · exact (hmem o).trans (hrepresents.admissible_iff hs).symm
  · exact (Run.ends_record _ σ).bind ((Run.ends_ok hadmissible _).bind
      ((hlist.inContext_ok _).bind ((Run.ends_record _ σ₁).bind hends)))

omit hs in
/-- Optimization lists the outcomes of the optimal models, which are those that the rule selects. -/
theorem optimize_ends (hE : E.Correct) (hsize : s.agenda.size < Count.limit)
    {p : OptimizationProblem} (hp : s.problem r = .ok p) (hexpresses : s.Expresses r p)
    {σ : Session γ} (hfit : (optimize B E r s).Fits σ) :
    ∃ os σ', (∀ o, o ∈ os ↔ s.Selects s.Admissible o r) ∧
      (optimize B E r s).Ends σ (.ok (SortedList.ofList os)) σ' := by
  have hfit₁ := (hfit.of_record.right ((Run.tells_ofResult _).inContext _)
    ((Run.ends_ok hp _).inContext_ok _)).of_record
  obtain ⟨e, σ₁, hsearch, hremaining, -⟩ := p.optimalModels_ends hsound hcomplete hE
    hexpresses.narrow (hfit₁.left fun e =>
      ((Outcome.listAll_tells (fun _ => trivial) B e).inContext _).bind fun _ =>
        (Run.tells_record trivial).bind fun _ => Run.tells_pure _)
  rw [hexpresses.projection] at hremaining
  obtain ⟨ms, -, ⟨σ₂, hlist⟩, -, hmem⟩ := Outcome.exists_lists hsound hcomplete hsize hremaining σ₁
  obtain ⟨σ', hends⟩ : ∃ σ', (optimize B E r s).Ends σ
      (.ok (SortedList.ofList (ms.map Outcome.ofModel))) σ' :=
    ⟨_, (Run.ends_record _ σ).bind (((Run.ends_ok hp _).inContext_ok _).bind
      ((Run.ends_record _ _).bind (hsearch.bind ((hlist.inContext_ok _).bind
        ((Run.ends_record _ σ₂).bind (Run.ends_pure _ _))))))⟩
  exact ⟨_, σ', fun o => (hmem o).trans (hexpresses.selects o), hends⟩

variable (hsize : s.agenda.size < 9223372036854775808) (hmoderate : s.Moderate)

include hsize hmoderate

/-- A strategy that has room for a rule gives the outcomes that the rule selects, in order. -/
theorem evaluate_spec (hE : E.Correct) (hL : L.Correct) (hr : s.Tractable strategy r)
    {σ : Session γ}
    (hfit : (strategy.evaluate B E L r s).Fits σ) {os : List Outcome}
    (hsorted : SortedList.Sorted os) (hos : ∀ o, o ∈ os ↔ s.Selects s.Admissible o r) :
    ∃ σ', (strategy.evaluate B E L r s).Ends σ (.ok os) σ' := by
  have hlimit : s.agenda.size < Count.limit := Nat.lt_trans hsize (by decide)
  obtain ⟨os', hsorted', hos', σ', hends⟩ : ∃ os', SortedList.Sorted os' ∧
      (∀ o, o ∈ os' ↔ s.Selects s.Admissible o r) ∧
        ∃ σ', (strategy.evaluate B E L r s).Ends σ (.ok os') σ' := by
    cases strategy with
    | bruteForce =>
      obtain ⟨all, σ', hall, hends⟩ := compareAll_ends hs hsound hcomplete hlimit L r σ
      obtain ⟨selected, hselect, hsorted', hmem⟩ := Scenario.select_spec hL hmoderate
        ((Scenario.comparable_iff hall).2 hr)
      rw [hselect] at hends
      exact ⟨selected, hsorted', fun o => (hmem o).trans (Scenario.Selects.congr hall r), σ', hends⟩
    | optimization =>
      obtain ⟨p, hp, hexpresses⟩ := Scenario.exists_expresses hs hsize hmoderate hr
      obtain ⟨selected, σ', hmem, hends⟩ :=
        optimize_ends hsound hcomplete hE hlimit hp hexpresses hfit
      refine ⟨_, SortedList.sorted_ofList selected, fun o => ?_, σ', hends⟩
      rw [SortedList.mem_ofList, hmem]
  -- Both lists are sorted and have as members what the rule selects.
  have heq : os' = os :=
    SortedList.eq_of_mem_iff hsorted' hsorted fun o => (hos' o).trans (hos o).symm
  exact ⟨σ', heq ▸ hends⟩

/-- A strategy that has no room for a rule ends in a fault. -/
theorem evaluate_eq_fault (E : BoundEncoder) (hL : L.Correct) (hr : ¬ s.Tractable strategy r)
    (σ : Session γ) :
    ∃ σ', (strategy.evaluate B E L r s).Ends σ (.error .fault) σ' := by
  have hlimit : s.agenda.size < Count.limit := Nat.lt_trans hsize (by decide)
  cases strategy with
  | bruteForce =>
    obtain ⟨os, σ', hos, hends⟩ := compareAll_ends hs hsound hcomplete hlimit L r σ
    rw [Scenario.select_eq_fault hL hmoderate.voters ((Scenario.comparable_iff hos).not.2 hr)]
      at hends
    exact ⟨σ', hends⟩
  | optimization => exact ⟨_, optimize_eq_fault hs hr σ⟩

end Backend

/-- The outcomes that a rule selects are the members of one list in order. -/
theorem exists_selected (hs : s.WellFormed) (hsize : s.agenda.size < Count.limit) (r : Rule) :
    ∃ os, SortedList.Sorted os ∧ ∀ o, o ∈ os ↔ s.Selects s.Admissible o r := by
  classical
  obtain ⟨all, -, hall, -⟩ := compareAll_ends hs Backend.exhaustive_sound
    Backend.exhaustive_complete hsize .standard r (.start ())
  let selected := all.filter fun o => s.Selects s.Admissible o r
  refine ⟨SortedList.ofList selected, SortedList.sorted_ofList selected, fun o => ?_⟩
  rw [SortedList.mem_ofList, List.mem_filter, hall, decide_eq_true_eq]
  exact and_iff_right_of_imp Scenario.Selects.mem

/-- Both strategies **give** a list of outcomes, with any sound and complete backend, whichever
models it finds, with any correct encoder and lister and in any session, if the variables that the
encoder uses fit signed 32-bit words. -/
def Give (s : Scenario) (r : Rule) (os : List Outcome) : Prop :=
  ∀ (strategy : Strategy) (γ : Type) (B : Backend γ) (E : BoundEncoder) (L : Lister),
    B.Sound → B.Complete → E.Correct → L.Correct → ∀ σ, (strategy.evaluate B E L r s).Fits σ →
      ∃ σ', (strategy.evaluate B E L r s).Ends σ (.ok os) σ'

/-- **The strategies agree** on a rule exactly if both have room for it: then they give the same
list of outcomes, which is sorted and has no repetitions, and otherwise there is no list that both
give. The list has the admissible outcomes that the rule selects. A formula takes 24 bytes or more,
and there must be room for those of the agenda. -/
theorem agree_iff (hs : s.Reachable) (hsize : s.agenda.size ≤ Count.capacity 24)
    (hvoters : Scenario.voters s.profile * (s.agenda.size + 1) < 9223372036854775808) (r : Rule) :
    ((∃ os, SortedList.Sorted os ∧ Give s r os) ↔ ∀ strategy, s.Tractable strategy r) ∧
      ∀ os, Give s r os → ∀ o, o ∈ os ↔ s.Selects s.Admissible o r := by
  have hwell := hs.wellFormed
  have hlt := Scenario.size_lt_of_capacity hsize
  have hmoderate := Scenario.moderate_of_lt hvoters
  obtain ⟨selected, hsorted, hselected⟩ := exists_selected hwell (Scenario.size_lt_limit hsize) r
  -- Exhaustive search is one of the backends, and without room it ends in a fault.
  have htractable {os} (hgive : Give s r os) (strategy) : s.Tractable strategy r := by
    by_contra hr
    obtain ⟨σ', hends⟩ := hgive strategy Unit .exhaustive .thresholds .standard
      Backend.exhaustive_sound Backend.exhaustive_complete BoundEncoder.thresholds_correct
      Lister.standard_correct (.start ()) (fits_of_not_tractable hwell hr _ _ _ _)
    obtain ⟨σ'', hfault⟩ := evaluate_eq_fault hwell Backend.exhaustive_sound
      Backend.exhaustive_complete hlt hmoderate .thresholds Lister.standard_correct hr (.start ())
    cases hends.symm.trans hfault
  refine ⟨⟨?_, fun hr => ?_⟩, fun os hgive => ?_⟩
  · rintro ⟨os, -, hgive⟩
    exact htractable hgive
  · exact ⟨selected, hsorted, fun strategy γ B E L hsound hcomplete hE hL σ hfit =>
      evaluate_spec hwell hsound hcomplete hlt hmoderate hE hL (hr strategy) hfit hsorted hselected⟩
  · have hfit := bruteForce_fits .exhaustive .thresholds .standard r s (.start ())
    obtain ⟨σ', hends⟩ := hgive .bruteForce Unit .exhaustive .thresholds .standard
      Backend.exhaustive_sound Backend.exhaustive_complete BoundEncoder.thresholds_correct
      Lister.standard_correct (.start ()) hfit
    obtain ⟨σ'', hends'⟩ := evaluate_spec hwell Backend.exhaustive_sound
      Backend.exhaustive_complete hlt hmoderate BoundEncoder.thresholds_correct
      Lister.standard_correct (htractable hgive .bruteForce) hfit hsorted hselected
    cases hends.symm.trans hends'
    exact hselected

/-- Three voters: each of two issues is accepted by two of them, but both issues by one only. -/
def dilemma : Scenario where
  declared := ["a", "b"]
  agenda := ⟨[.atom "a", .atom "b", .and [.atom "a", .atom "b"]]⟩
  inputs := []
  outputs := []
  profile := [⟨1, [.atom "a", .atom "b", .and [.atom "a", .atom "b"]], [1, 2, 3]⟩,
    ⟨1, [.atom "a"], [1]⟩, ⟨1, [.atom "b"], [2]⟩]

theorem dilemma_reachable : dilemma.Reachable :=
  Scenario.Reachable.empty.build
    [.variable "a", .variable "b", .agenda (.atom "a"), .agenda (.atom "b"),
      .agenda (.and [.atom "a", .atom "b"]),
      .judgment 1 [.atom "a", .atom "b", .and [.atom "a", .atom "b"]],
      .judgment 1 [.atom "a"], .judgment 1 [.atom "b"]]
    (by decide +kernel)

/-- The strategies agree on a tie: each outcome follows two of the three majorities. -/
theorem agree_on_dilemma :
    dilemma.Reachable ∧ dilemma.agenda.size ≤ Count.capacity 24 ∧
    Scenario.voters dilemma.profile * (dilemma.agenda.size + 1) < 9223372036854775808 ∧
    Give dilemma .slater [Outcome.ofPairs [(1, false), (2, true), (3, false)],
      Outcome.ofPairs [(1, true), (2, false), (3, false)],
      Outcome.ofPairs [(1, true), (2, true), (3, true)]] := by
  have hsize : dilemma.agenda.size ≤ Count.capacity 24 := by decide
  have hvoters : Scenario.voters dilemma.profile * (dilemma.agenda.size + 1) <
      9223372036854775808 := by decide
  have htractable : ∀ strategy, dilemma.Tractable strategy .slater
    | .bruteForce => .inl (by decide)
    | .optimization => trivial
  obtain ⟨os, -, hgive⟩ := (agree_iff dilemma_reachable hsize hvoters .slater).1.2 htractable
  obtain ⟨σ', hends⟩ := hgive .bruteForce Unit .exhaustive .thresholds .standard
    Backend.exhaustive_sound Backend.exhaustive_complete BoundEncoder.thresholds_correct
    Lister.standard_correct (.start ()) (bruteForce_fits _ _ _ _ _ _)
  -- The list is known from one strategy and one backend.
  have hos : ((bruteForce.evaluate .exhaustive .thresholds .standard .slater dilemma).run.run
      (.start ())).1 = .ok [Outcome.ofPairs [(1, false), (2, true), (3, false)],
        Outcome.ofPairs [(1, true), (2, false), (3, false)],
        Outcome.ofPairs [(1, true), (2, true), (3, true)]] := by decide +kernel
  rw [Run.Ends] at hends
  rw [hends] at hos
  cases hos
  exact ⟨dilemma_reachable, hsize, hvoters, hgive⟩

/-- Two voters accept the only issue, and one rejects it. -/
def contested : Scenario where
  declared := ["a"]
  agenda := ⟨[.atom "a"]⟩
  inputs := []
  outputs := []
  profile := [⟨2, [.atom "a"], [1]⟩, ⟨1, [], []⟩]

theorem contested_reachable : contested.Reachable :=
  Scenario.Reachable.empty.build
    [.variable "a", .agenda (.atom "a"), .judgment 2 [.atom "a"], .judgment 1 []]
    (by decide +kernel)

/-- A voter accepts 21 issues, and the outcome must reject the first one and accept the others. -/
def disputed : Scenario where
  declared := issues
  agenda := ⟨issues.map .atom⟩
  inputs := []
  outputs := .not (.atom "a") :: issues.tail.map .atom
  profile := [⟨1, issues.map .atom, List.range' 1 21⟩]
where
  issues : List String :=
    ["a", "b", "c", "d", "e", "f", "g", "h", "i", "j", "k", "l", "m", "n", "o", "p", "q", "r", "s",
      "t", "u"]

theorem disputed_reachable : disputed.Reachable := by
  have hdeclared : Scenario.Reachable ⟨disputed.issues, ⟨[]⟩, [], [], []⟩ :=
    Scenario.Reachable.empty.build (disputed.issues.map .variable) (by decide +kernel)
  have hagenda : Scenario.Reachable
      ⟨disputed.issues, ⟨disputed.issues.map .atom⟩, [], [], []⟩ := by
    refine hdeclared.extendAgenda (disputed.issues.map .atom) rfl ⟨fun _ => true, nofun⟩
      ⟨fun _ => true, nofun⟩ (List.forall_mem_map.2 fun v hv => ⟨rfl, fun w hw => ?_⟩)
      (by decide)
    rwa [Formula.mem_vars_atom.1 hw]
  obtain ⟨σ', hends⟩ := Scenario.addJudgmentSet_ends hagenda.wellFormed Backend.exhaustive_sound
    Backend.exhaustive_complete Nat.one_ne_zero (disputed.issues.map .atom)
    (j := ⟨1, disputed.issues.map .atom, List.range' 1 21⟩) (by decide +kernel)
    ⟨fun _ => true, nofun, by decide⟩ (.start ())
  have hprofile := hagenda.change (c := .judgment 1 (disputed.issues.map .atom))
    Backend.exhaustive_sound hends
  exact hprofile.extendOutputs disputed.outputs (by decide +kernel)
    ⟨fun v => v != "a", by decide⟩

/-- No admissible outcome follows the majority on the first issue, and 21 judgments are too many to
count the choices among them. -/
theorem disputed_intractable : ¬ disputed.Tractable .bruteForce .slater := by
  rintro (hfew | ⟨o, ⟨A, hA, rfl⟩, hagrees⟩)
  · have hlength : disputed.majority.length = 21 := by decide
    omega
  · have hfirst : A "a" = false := by simpa using hA (.not (.atom "a")) List.mem_cons_self
    have hmajority : (1, true) ∈ disputed.majority := by decide
    have hfollows := List.all_eq_true.1 hagrees (1, true) hmajority
    have hvalue : (disputed.agenda.outcome A).value? 1 = some (A "a") := rfl
    rw [hvalue, hfirst] at hfollows
    cases hfollows

/-- The strategies do not agree on Slater's rule where brute force has no room for it. -/
theorem disagree_on_disputed :
    disputed.Reachable ∧ disputed.agenda.size ≤ Count.capacity 24 ∧
    Scenario.voters disputed.profile * (disputed.agenda.size + 1) < 9223372036854775808 ∧
    ¬ ∃ os, SortedList.Sorted os ∧ Give disputed .slater os := by
  have hsize : disputed.agenda.size ≤ Count.capacity 24 := by decide
  have hvoters : Scenario.voters disputed.profile * (disputed.agenda.size + 1) <
      9223372036854775808 := by decide
  refine ⟨disputed_reachable, hsize, hvoters, ?_⟩
  rintro ⟨os, -, hgive⟩
  obtain ⟨σ', hends⟩ := hgive .bruteForce Unit .exhaustive .thresholds .standard
    Backend.exhaustive_sound Backend.exhaustive_complete BoundEncoder.thresholds_correct
    Lister.standard_correct (.start ()) (bruteForce_fits _ _ _ _ _ _)
  obtain ⟨σ'', hfault⟩ := evaluate_eq_fault disputed_reachable.wellFormed Backend.exhaustive_sound
    Backend.exhaustive_complete (by decide) (Scenario.moderate_of_lt hvoters) .thresholds
    Lister.standard_correct disputed_intractable (.start ())
  cases hends.symm.trans hfault

end Strategy

end JudgmentAggregation
