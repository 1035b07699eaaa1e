import JudgmentAggregation.Proofs.Count
import JudgmentAggregation.Rule.Select
import Mathlib.Data.List.Forall2

/-!
# What the rules select

The numbers that the rules compare are counted here without a limit, and `Scenario.Selects` says in
terms of them which of some outcomes a rule selects. As long as there are fewer than 2⁶³ voters, the
counts of a scenario are these numbers (`Scenario.supportCount_eq`, …).
-/

namespace JudgmentAggregation

/-- The number of some judgments that an outcome follows. -/
def Outcome.followed (o : Outcome) (ls : List (Nat × Bool)) : Nat :=
  ls.countP fun l => o.value? l.1 == some l.2

namespace Scenario

/-! ### Numbers of voters -/

/-- The number of voters who accept a label. -/
def support (s : Scenario) (l : Nat) : Nat :=
  voters (s.supporters l)

/-- The number of voters who agree with an outcome on a label. -/
def accord (s : Scenario) (o : Outcome) (l : Nat) : Nat :=
  if o.value? l = some true then s.support l else voters s.profile - s.support l

/-- The numbers of voters who agree with an outcome on the labels. -/
def accords (s : Scenario) (o : Outcome) : List Nat :=
  s.agenda.labels.map (s.accord o)

/-- The judgments of strict majorities. -/
def majority (s : Scenario) : List (Nat × Bool) :=
  s.agenda.labels.filterMap fun l =>
    (strictSide (s.support l) (voters s.profile)).map fun b => (l, b)

/-- The number of included voters who accept a label. -/
def includedSupport (s : Scenario) (included : List Nat) (l : Nat) : Nat :=
  Count.total (((s.profile.zip included).filter fun p => p.1.accepts l).map Prod.snd)

/-- The judgments of strict majorities of the included voters. -/
def majorityOf (s : Scenario) (included : List Nat) : List (Nat × Bool) :=
  s.agenda.labels.filterMap fun l =>
    (strictSide (s.includedSupport included l) (Count.total included)).map fun b => (l, b)

/-! ### Selected outcomes -/

/-- A number for each of some groups is an **inclusion** of so many of their voters. -/
def Inclusion (js : List JudgmentSet) (included : List Nat) : Prop :=
  List.Forall₂ (fun j n => n ≤ j.multiplicity) js included

/-- An outcome **follows** the majority of some included voters. -/
def Follows (s : Scenario) (included : List Nat) (o : Outcome) : Prop :=
  Inclusion s.profile included ∧ o.agreesWith (s.majorityOf included) = true

/-- A rule **selects** an outcome among some outcomes. -/
def Selects (s : Scenario) (X : Outcome → Prop) (o : Outcome) : Rule → Prop
  | .kemeny => X o ∧ ∀ o', X o' → Count.total (s.accords o') ≤ Count.total (s.accords o)
  | .leximax => X o ∧ ∀ o', X o' →
      ¬ List.Lex (· < ·) (descending (s.accords o)) (descending (s.accords o'))
  | .maxHamming => X o ∧ ∀ o', X o' → s.farthestDistance o ≤ s.farthestDistance o'
  | .slater => X o ∧ ∀ o', X o' → o'.followed s.majority ≤ o.followed s.majority
  | .majority => X o ∧ o.agreesWith s.majority = true
  | .young => X o ∧ ∃ included, s.Follows included o ∧
      ∀ o' included', X o' → s.Follows included' o' → Count.total included' ≤ Count.total included

variable {s : Scenario} {o : Outcome} {l : Nat} {included : List Nat}

theorem Selects.congr {X Y : Outcome → Prop} (h : ∀ o, X o ↔ Y o) (r : Rule) :
    s.Selects X o r ↔ s.Selects Y o r := by
  obtain rfl : X = Y := funext fun o => propext (h o)
  exact Iff.rfl

/-- Only what is there is selected. -/
theorem Selects.mem {X : Outcome → Prop} {r : Rule} (h : s.Selects X o r) : X o := by
  cases r <;> exact h.1

/-- Where two kinds of things of the same sizes are related to outcomes, a greatest thing of one
kind is as good as a greatest one of the other. -/
theorem exists_most_iff {ι κ : Type} {F : ι → Outcome → Prop} {G : κ → Outcome → Prop}
    {size : ι → Nat} {size' : κ → Nat} {X : Outcome → Prop}
    (h : ∀ o n, (∃ i, F i o ∧ size i = n) ↔ ∃ k, G k o ∧ size' k = n) (o : Outcome) :
    (∃ i, F i o ∧ ∀ o' i', X o' → F i' o' → size i' ≤ size i) ↔
      ∃ k, G k o ∧ ∀ o' k', X o' → G k' o' → size' k' ≤ size' k := by
  constructor
  · rintro ⟨i, hi, hmost⟩
    obtain ⟨k, hk, hsize⟩ := (h o (size i)).1 ⟨i, hi, rfl⟩
    refine ⟨k, hk, fun o' k' ho' hk' => ?_⟩
    obtain ⟨i', hi', hsize'⟩ := (h o' (size' k')).2 ⟨k', hk', rfl⟩
    rw [hsize, ← hsize']
    exact hmost o' i' ho' hi'
  · rintro ⟨k, hk, hmost⟩
    obtain ⟨i, hi, hsize⟩ := (h o (size' k)).2 ⟨k, hk, rfl⟩
    refine ⟨i, hi, fun o' i' ho' hi' => ?_⟩
    obtain ⟨k', hk', hsize'⟩ := (h o' (size i')).1 ⟨i', hi', rfl⟩
    rw [hsize, ← hsize']
    exact hmost o' k' ho' hk'

/-- An outcome agrees with the judgments of some sides if it takes their values. -/
theorem agreesWith_sides {side : Nat → Option Bool} {ls : List Nat} :
    o.agreesWith (ls.filterMap fun l => (side l).map fun b => (l, b)) = true ↔
      ∀ l ∈ ls, ∀ b, side l = some b → o.value? l = some b := by
  rw [Outcome.agreesWith, List.all_eq_true]
  constructor
  · intro h l hl b hside
    have hmem : (l, b) ∈ ls.filterMap fun l => (side l).map fun b => (l, b) :=
      List.mem_filterMap.2 ⟨l, hl, by rw [hside]; rfl⟩
    exact eq_of_beq (h (l, b) hmem)
  · rintro h ⟨l, b⟩ hmem
    obtain ⟨l', hl', hmap⟩ := List.mem_filterMap.1 hmem
    obtain ⟨b', hside, hpair⟩ := Option.map_eq_some_iff.1 hmap
    cases hpair
    exact beq_iff_eq.2 (h l hl' b hside)

/-! ### Strict majorities -/

/-- The strict majority accepts what more than half of the voters do. -/
theorem strictSide_eq_some_true {support n : Nat} :
    strictSide support n = some true ↔ n < 2 * support := by
  rw [strictSide]
  split
  · simp [*]
  · split <;> simp [*]

/-- The strict majority rejects what less than half of the voters accept. -/
theorem strictSide_eq_some_false {support n : Nat} :
    strictSide support n = some false ↔ 2 * support < n := by
  rw [strictSide]
  split
  · simp only [Option.some.injEq, Bool.true_eq_false, false_iff]
    omega
  · split <;> simp [*]

/-! ### Counts -/

/-- No label has more support than there are voters. -/
theorem support_le (s : Scenario) (l : Nat) : s.support l ≤ voters s.profile :=
  Count.total_le_of_sublist (List.filter_sublist.map _)

/-- No more voters agree with an outcome than there are. -/
theorem accord_le (s : Scenario) (o : Outcome) (l : Nat) : s.accord o l ≤ voters s.profile := by
  have := s.support_le l
  rw [accord]
  split <;> omega

theorem total_accords_le (s : Scenario) (o : Outcome) :
    Count.total (s.accords o) ≤ voters s.profile * s.agenda.size := by
  have hlength : s.agenda.labels.length = s.agenda.size := List.length_range' ..
  rw [accords, ← hlength]
  generalize s.agenda.labels = ls
  induction ls with
  | nil => exact Nat.le_refl _
  | cons l ls ih =>
    have := s.accord_le o l
    rw [List.map_cons, Count.total, List.length_cons, Nat.mul_succ]
    omega

/-- The voters of a scenario, and their judgments on all the labels, are fewer than 2⁶³. -/
structure Moderate (s : Scenario) : Prop where
  voters : voters s.profile < 9223372036854775808
  judgments : Scenario.voters s.profile * s.agenda.size < 9223372036854775808

/-- A scenario is moderate if its judgments are less than 2⁶³. -/
theorem moderate_of_lt (h : voters s.profile * (s.agenda.size + 1) < 9223372036854775808) :
    s.Moderate where
  voters := Nat.lt_of_le_of_lt (Nat.le_mul_of_pos_right _ (Nat.succ_pos _)) h
  judgments := Nat.lt_of_le_of_lt (Nat.mul_le_mul_left _ (Nat.le_succ _)) h

section Fits

variable (h : voters s.profile < 9223372036854775808)

include h

theorem voters_lt_limit : voters s.profile < Count.limit :=
  Nat.lt_of_lt_of_le h (by decide)

theorem two_mul_lt_limit {n : Nat} (hn : n ≤ voters s.profile) : 2 * n < Count.limit := by
  have hlimit : Count.limit = 2 * 9223372036854775808 := by decide
  omega

theorem voterCount_eq : s.voterCount = .ok (voters s.profile) :=
  Count.sum_eq_ok (voters_lt_limit h)

theorem supportCount_eq (l : Nat) : s.supportCount l = .ok (s.support l) :=
  Count.sum_eq_ok (Nat.lt_of_le_of_lt (s.support_le l) (voters_lt_limit h))

theorem agreement_eq (o : Outcome) (l : Nat) : s.agreement o l = .ok (s.accord o l) := by
  rw [agreement, supportCount_eq h, voterCount_eq h, accord]
  have hsub : Count.sub (voters s.profile) (s.support l) =
      .ok (voters s.profile - s.support l) := Count.sub_eq_ok (s.support_le l)
  rw [Result.ok_bind, Result.ok_bind, hsub]
  split <;> rfl

theorem agreements_eq (o : Outcome) : s.agreements o = .ok (s.accords o) :=
  Result.mapM_eq_ok fun l _ => agreement_eq h o l

theorem strictMajority_eq (l : Nat) :
    s.strictMajority l = .ok (strictSide (s.support l) (voters s.profile)) := by
  have hmul : Count.mul 2 (s.support l) = .ok (2 * s.support l) :=
    Count.check_eq_ok (two_mul_lt_limit h (s.support_le l))
  rw [strictMajority, supportCount_eq h, voterCount_eq h, Result.ok_bind, hmul]
  rfl

theorem majorityLiterals_eq : s.majorityLiterals = .ok s.majority := by
  have hsides : (s.agenda.labels.mapM fun l => do
      return (← s.strictMajority l).map fun b => (l, b)) =
        .ok (s.agenda.labels.map fun l =>
          (strictSide (s.support l) (voters s.profile)).map fun b => (l, b)) := by
    refine Result.mapM_eq_ok fun l _ => ?_
    rw [strictMajority_eq h]
    rfl
  rw [majorityLiterals, hsides, Result.ok_bind, List.filterMap_map]
  rfl

end Fits

end Scenario

end JudgmentAggregation
