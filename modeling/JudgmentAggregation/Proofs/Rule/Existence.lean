import JudgmentAggregation.Proofs.Rule.Evaluate
import JudgmentAggregation.Proofs.Scenario.Invariant

/-!
# Something is selected

Every rule but the majority rule selects one of some outcomes, if there are any
(`Scenario.exists_selects`): finitely many keys have a greatest one, and Young's rule finds an
outcome to compare with since the majority of no voter demands nothing. Reachable scenarios have an
admissible outcome, as their output constraints stay satisfiable. So where a strategy has room for a
rule, it selects an admissible outcome, and the majority rule selects those that take the value of
the strict majority on every label that has one (`Strategy.evaluate_provides_iff`).
-/

namespace JudgmentAggregation

namespace Scenario

variable {s : Scenario} {o a : Outcome} {os : List Outcome} {r : Rule}

/-- Finitely many keys have a greatest one. -/
theorem exists_greatest {ι κ : Type} (cmp : κ → κ → Ordering) [Std.TransCmp cmp] (key : ι → κ)
    {x : ι} {xs : List ι} (hx : x ∈ xs) : ∃ y ∈ xs, ∀ z ∈ xs, (cmp (key z) (key y)).isLE := by
  rcases xs with _ | ⟨x₁, xs⟩
  · exact absurd hx List.not_mem_nil
  · obtain ⟨hmem, hle⟩ : greatestKey cmp (key x₁) (xs.map key) ∈ (x₁ :: xs).map key ∧
        ∀ k ∈ (x₁ :: xs).map key, (cmp k (greatestKey cmp (key x₁) (xs.map key))).isLE :=
      greatestKey_spec cmp (key x₁) (xs.map key)
    obtain ⟨y, hy, hkey⟩ := List.mem_map.1 hmem
    exact ⟨y, hy, fun z hz => hkey ▸ hle _ (List.mem_map_of_mem hz)⟩

/-! ### Young's rule -/

/-- The inclusion of no voter. -/
def nobody (s : Scenario) : List Nat :=
  s.profile.map fun _ => 0

/-- To include nobody is one way to include voters. -/
theorem nobody_mem (s : Scenario) : Inclusion s.profile s.nobody := by
  rw [Inclusion, nobody, List.forall₂_map_right_iff, List.forall₂_same]
  exact fun j _ => Nat.zero_le _

/-- Nobody has no strict majorities. -/
theorem majorityOf_nobody (s : Scenario) : s.majorityOf s.nobody = [] := by
  have htotal : Count.total s.nobody = 0 := by
    rw [nobody, Count.total_map_const, Nat.zero_mul]
  refine List.filterMap_eq_nil_iff.2 fun l _ => ?_
  have hsupport := includedSupport_le s.nobody_mem l
  rw [htotal, Nat.le_zero] at hsupport
  rw [htotal, hsupport]
  rfl

/-- Every outcome follows the majority of no voter. -/
theorem follows_nobody (s : Scenario) (o : Outcome) : s.Follows s.nobody o := by
  refine ⟨s.nobody_mem, ?_⟩
  rw [majorityOf_nobody]
  rfl

/-- Young's rule selects something from any outcomes. -/
theorem exists_selects_young (ha : a ∈ os) : ∃ o, s.Selects (· ∈ os) o .young := by
  -- The inclusions whose majority some outcome follows.
  let followed := (inclusions .standard s.profile).filter fun c =>
    os.any (·.agreesWith (s.majorityOf c))
  have hmem {c} : c ∈ followed ↔ ∃ o ∈ os, s.Follows c o := by
    rw [List.mem_filter, List.any_eq_true, mem_inclusions Lister.standard_correct]
    exact ⟨fun ⟨hc, o, ho, hagrees⟩ => ⟨o, ho, hc, hagrees⟩,
      fun ⟨o, ho, hc, hagrees⟩ => ⟨hc, o, ho, hagrees⟩⟩
  obtain ⟨c, hc, hmost⟩ := exists_greatest compare Count.total
    (hmem.2 ⟨a, ha, s.follows_nobody a⟩)
  obtain ⟨o, ho, hfollows⟩ := hmem.1 hc
  exact ⟨o, ho, c, hfollows, fun o' c' ho' hfollows' =>
    Nat.isLE_compare.1 (hmost c' (hmem.2 ⟨o', ho', hfollows'⟩))⟩

/-! ### All the rules -/

/-- Every rule but the majority rule selects one of some outcomes. -/
theorem exists_selects (hr : r ≠ .majority) (ha : a ∈ os) : ∃ o, s.Selects (· ∈ os) o r := by
  cases r with
  | majority => exact absurd rfl hr
  | young => exact exists_selects_young ha
  | kemeny =>
    obtain ⟨o, ho, hmost⟩ := exists_greatest compare (fun o => Count.total (s.accords o)) ha
    exact ⟨o, ho, fun o' ho' => Nat.isLE_compare.1 (hmost o' ho')⟩
  | leximax =>
    obtain ⟨o, ho, hmost⟩ := exists_greatest cmpNumbers (fun o => descending (s.accords o)) ha
    exact ⟨o, ho, fun o' ho' => isLE_cmpNumbers.1 (hmost o' ho')⟩
  | slater =>
    obtain ⟨o, ho, hmost⟩ := exists_greatest compare (fun o => o.followed s.majority) ha
    exact ⟨o, ho, fun o' ho' => Nat.isLE_compare.1 (hmost o' ho')⟩
  | maxHamming =>
    obtain ⟨o, ho, hmost⟩ :=
      exists_greatest (fun m n : Nat => compare n m) s.farthestDistance ha
    exact ⟨o, ho, fun o' ho' => Nat.isLE_compare.1 (hmost o' ho')⟩

/-- An outcome takes the value of the strict majority on every label that has one. -/
def TakesMajority (s : Scenario) (o : Outcome) : Prop :=
  ∀ l ∈ s.agenda.labels, ∀ b, s.strictMajority l = .ok (some b) → o.value? l = some b

/-- To take the values of the strict majorities is to agree with their judgments. -/
theorem takesMajority_iff (h : voters s.profile < 9223372036854775808) :
    s.TakesMajority o ↔ o.agreesWith s.majority = true := by
  simp only [TakesMajority, strictMajority_eq h, Except.ok.injEq]
  exact agreesWith_sides.symm

/-- What a selection by a rule is to be: some admissible outcomes, or for the majority rule all
those that take the value of every strict majority. -/
structure Provides (s : Scenario) (r : Rule) (os : List Outcome) : Prop where
  admissible : ∀ o ∈ os, s.Admissible o
  nonempty : r ≠ .majority → os ≠ []
  majority : r = .majority → ∀ o, o ∈ os ↔ s.Admissible o ∧ s.TakesMajority o

end Scenario

namespace Strategy

variable {γ : Type} {B : Backend γ} {E : BoundEncoder} {L : Lister} {s : Scenario}
  {strategy : Strategy} {r : Rule}

/-- **Something is always selected** where there is room for the rule. If the variables that the
encoder uses fit signed 32-bit words, a strategy provides the selection of a rule exactly if it has
room for it. -/
theorem evaluate_provides_iff (hs : s.Reachable) (hsize : s.agenda.size ≤ Count.capacity 24)
    (hvoters : Scenario.voters s.profile * (s.agenda.size + 1) < 9223372036854775808)
    (hsound : B.Sound) (hcomplete : B.Complete) (hE : E.Correct) (hL : L.Correct) (σ : Session γ)
    (hfit : (strategy.evaluate B E L r s).Fits σ) :
    (∃ os σ', (strategy.evaluate B E L r s).Ends σ (.ok os) σ' ∧ s.Provides r os) ↔
      s.Tractable strategy r := by
  have hwell := hs.wellFormed
  have hlt := Scenario.size_lt_of_capacity hsize
  have hmoderate := Scenario.moderate_of_lt hvoters
  constructor
  · rintro ⟨os, σ', hends, -⟩
    by_contra hr
    obtain ⟨σ'', hfault⟩ := evaluate_eq_fault hwell hsound hcomplete hlt hmoderate E hL hr σ
    cases hends.symm.trans hfault
  · intro hr
    obtain ⟨os, hsorted, hos⟩ := exists_selected hwell (Scenario.size_lt_limit hsize) r
    obtain ⟨σ', hends⟩ :=
      evaluate_spec hwell hsound hcomplete hlt hmoderate hE hL hr hfit hsorted hos
    refine ⟨os, σ', hends, fun o ho => ((hos o).1 ho).mem, fun hne => ?_, ?_⟩
    · -- The output constraints are satisfiable, so that there are admissible outcomes.
      obtain ⟨A, hA⟩ := hs.valid.satisfiable_outputs
      obtain ⟨all, -, hall, -⟩ := compareAll_ends hwell hsound hcomplete
        (Scenario.size_lt_limit hsize) L r σ
      obtain ⟨o, ho⟩ := Scenario.exists_selects hne ((hall _).2 ⟨A, hA, rfl⟩)
      exact List.ne_nil_of_mem ((hos o).2 ((Scenario.Selects.congr hall r).1 ho))
    · rintro rfl o
      rw [hos, Scenario.takesMajority_iff hmoderate.voters]
      rfl

/-- Optimization provides an outcome of the least distance. -/
theorem evaluate_provides_contested :
    contested.Reachable ∧ contested.agenda.size ≤ Count.capacity 24 ∧
    Scenario.voters contested.profile * (contested.agenda.size + 1) < 9223372036854775808 ∧
    (optimization.evaluate .exhaustive .thresholds .standard .maxHamming contested).Fits
      (.start ()) ∧
    ∃ os σ', (optimization.evaluate .exhaustive .thresholds .standard .maxHamming contested).Ends
      (.start ()) (.ok os) σ' ∧ contested.Provides .maxHamming os := by
  have hsize : contested.agenda.size ≤ Count.capacity 24 := by decide
  have hvoters : Scenario.voters contested.profile * (contested.agenda.size + 1) <
      9223372036854775808 := by decide
  have hfit : (optimization.evaluate .exhaustive .thresholds .standard .maxHamming contested).Fits
      (.start ()) := by decide +kernel
  exact ⟨contested_reachable, hsize, hvoters, hfit,
    (evaluate_provides_iff contested_reachable hsize hvoters Backend.exhaustive_sound
      Backend.exhaustive_complete BoundEncoder.thresholds_correct Lister.standard_correct
      (.start ()) hfit).2 trivial⟩

/-- Nothing is selected by brute force where there is no room for the choices of judgments. -/
theorem evaluate_slater_disputed :
    disputed.Reachable ∧ disputed.agenda.size ≤ Count.capacity 24 ∧
    Scenario.voters disputed.profile * (disputed.agenda.size + 1) < 9223372036854775808 ∧
    ¬ ∃ os σ', (bruteForce.evaluate .exhaustive .thresholds .standard .slater disputed).Ends
      (.start ()) (.ok os) σ' := by
  have hsize : disputed.agenda.size ≤ Count.capacity 24 := by decide
  have hvoters : Scenario.voters disputed.profile * (disputed.agenda.size + 1) <
      9223372036854775808 := by decide
  refine ⟨disputed_reachable, hsize, hvoters, ?_⟩
  rintro ⟨os, σ', hends⟩
  obtain ⟨σ'', hfault⟩ := evaluate_eq_fault disputed_reachable.wellFormed Backend.exhaustive_sound
    Backend.exhaustive_complete (Scenario.size_lt_of_capacity hsize)
    (Scenario.moderate_of_lt hvoters) .thresholds Lister.standard_correct disputed_intractable
    (.start ())
  cases hends.symm.trans hfault

end Strategy

end JudgmentAggregation
