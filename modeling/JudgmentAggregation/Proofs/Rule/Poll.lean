import JudgmentAggregation.Proofs.Rule.Leximax

/-!
# Polls

What the rules make of a scenario can be said without labels: a **poll** has the formulas that are
voted on, and the groups of voters with the formulas that they accept. The numbers that the rules
compare are counted here formula by formula (`Poll.Selects`). They do not depend on the order in
which the formulas and the groups are listed, and neither does what is selected
(`Poll.Alike.selects`).
-/

namespace JudgmentAggregation

/-- Some formulas that are voted on, and groups of voters: how many they are, and which formulas
they accept. -/
structure Poll where
  formulas : List Formula
  groups : List (Nat × List Formula)

namespace Poll

/-! ### Numbers of voters -/

/-- The number of voters. -/
def voters (p : Poll) : Nat :=
  Count.total (p.groups.map Prod.fst)

/-- The number of voters who accept a formula. -/
def support (p : Poll) (f : Formula) : Nat :=
  Count.total ((p.groups.filter fun g => g.2.contains f).map Prod.fst)

/-- The number of voters who agree with a valuation on a formula. -/
def accord (p : Poll) (A : Valuation String) (f : Formula) : Nat :=
  if f.eval A then p.support f else p.voters - p.support f

/-- The numbers of voters who agree with a valuation on the formulas. -/
def accords (p : Poll) (A : Valuation String) : List Nat :=
  p.formulas.map (p.accord A)

/-- The judgments of strict majorities. -/
def majority (p : Poll) : List (Formula × Bool) :=
  p.formulas.filterMap fun f =>
    (Scenario.strictSide (p.support f) p.voters).map fun b => (f, b)

/-- The number of judgments of strict majorities that a valuation follows. -/
def followed (p : Poll) (A : Valuation String) : Nat :=
  p.majority.countP fun l => l.1.eval A == l.2

/-- The valuation follows all the judgments of strict majorities. -/
def FollowsAll (p : Poll) (A : Valuation String) : Prop :=
  p.followed A = p.majority.length

/-- The number of formulas on which a valuation differs from a voter. -/
def distance (p : Poll) (A : Valuation String) (accepted : List Formula) : Nat :=
  p.formulas.countP fun f => accepted.contains f != f.eval A

/-- The distance to the farthest voter. -/
def farthest (p : Poll) (A : Valuation String) : Nat :=
  (p.groups.map fun g => p.distance A g.2).foldl Nat.max 0

/-- The poll among some of the voters of each group. -/
structure Part (q p : Poll) : Prop where
  formulas : q.formulas = p.formulas
  groups : List.Forall₂ (fun g h => h.1 ≤ g.1 ∧ h.2 = g.2) p.groups q.groups

/-- A rule **selects** a valuation among those with a property. -/
def Selects (p : Poll) (Q : Valuation String → Prop) (A : Valuation String) : Rule → Prop
  | .kemeny => ∀ A', Q A' → Count.total (p.accords A') ≤ Count.total (p.accords A)
  | .leximax => ∀ A', Q A' → ¬ List.Lex (· < ·) (Scenario.descending (p.accords A))
      (Scenario.descending (p.accords A'))
  | .maxHamming => ∀ A', Q A' → p.farthest A ≤ p.farthest A'
  | .slater => ∀ A', Q A' → p.followed A' ≤ p.followed A
  | .majority => p.FollowsAll A
  | .young => ∃ q : Poll, q.Part p ∧ q.FollowsAll A ∧
      ∀ A' (q' : Poll), Q A' → q'.Part p → q'.FollowsAll A' → q'.voters ≤ q.voters

/-! ### Polls in another order -/

/-- Two polls are **alike** when one lists the same formulas and the same groups as the other, in
any order. -/
structure Alike (p p' : Poll) : Prop where
  formulas : p.formulas.Perm p'.formulas
  groups : p.groups.Perm p'.groups

variable {p p' q : Poll} {A : Valuation String} {f : Formula} {ms ns : List Nat}

/-- The greatest of some numbers depends on which they are. -/
theorem foldl_max_eq_of_mem_iff (h : ∀ n, n ∈ ms ↔ n ∈ ns) :
    ms.foldl Nat.max 0 = ns.foldl Nat.max 0 := by
  have hle {ms ns : List Nat} (h : ∀ n, n ∈ ms → n ∈ ns) :
      ms.foldl Nat.max 0 ≤ ns.foldl Nat.max 0 := by
    obtain ⟨h₀, hns⟩ := OptimizationProblem.foldl_max_le.1 (Nat.le_refl (ns.foldl Nat.max 0))
    exact OptimizationProblem.foldl_max_le.2 ⟨h₀, fun n hn => hns n (h n hn)⟩
  exact Nat.le_antisymm (hle fun n => (h n).1) (hle fun n => (h n).2)

namespace Alike

theorem symm (h : p.Alike p') : p'.Alike p :=
  ⟨h.formulas.symm, h.groups.symm⟩

theorem voters_eq (h : p.Alike p') : p.voters = p'.voters :=
  Count.total_perm (h.groups.map _)

theorem support_eq (h : p.Alike p') (f : Formula) : p.support f = p'.support f :=
  Count.total_perm ((h.groups.filter _).map _)

theorem accords_perm (h : p.Alike p') (A : Valuation String) :
    (p.accords A).Perm (p'.accords A) := by
  have haccord : p.accord A = p'.accord A :=
    funext fun f => by rw [accord, accord, h.support_eq, h.voters_eq]
  rw [accords, accords, haccord]
  exact h.formulas.map _

theorem majority_perm (h : p.Alike p') : p.majority.Perm p'.majority := by
  rw [majority, majority, h.voters_eq, funext h.support_eq]
  exact h.formulas.filterMap _

theorem followed_eq (h : p.Alike p') (A : Valuation String) : p.followed A = p'.followed A :=
  h.majority_perm.countP_eq _

/-- A valuation follows all the majorities in both of two alike polls or in neither. -/
theorem followsAll_iff (h : p.Alike p') : p.FollowsAll A ↔ p'.FollowsAll A := by
  rw [FollowsAll, FollowsAll, h.followed_eq, h.majority_perm.length_eq]

theorem farthest_eq (h : p.Alike p') (A : Valuation String) : p.farthest A = p'.farthest A := by
  have hdistance : p.distance A = p'.distance A := funext fun accepted => h.formulas.countP_eq _
  rw [farthest, farthest, hdistance]
  exact foldl_max_eq_of_mem_iff fun n => (h.groups.map _).mem_iff

/-- A poll among some of the voters has its like. -/
theorem exists_part (h : p.Alike p') (hq : q.Part p) : ∃ q' : Poll, q'.Part p' ∧ q.Alike q' := by
  obtain ⟨groups, hgroups, hperm⟩ := List.perm_comp_forall₂ h.groups.symm hq.groups
  exact ⟨⟨p'.formulas, groups⟩, ⟨rfl, hgroups⟩, hq.formulas ▸ h.formulas, hperm.symm⟩

/-- A rule selects the same valuations in polls that are alike. -/
theorem selects {Q Q' : Valuation String → Prop} (h : p.Alike p') (hQ : ∀ A, Q' A → Q A) {r : Rule}
    (hselects : p.Selects Q A r) : p'.Selects Q' A r := by
  cases r with
  | kemeny =>
    intro A' hA'
    rw [← Count.total_perm (h.accords_perm A), ← Count.total_perm (h.accords_perm A')]
    exact hselects A' (hQ A' hA')
  | leximax =>
    intro A' hA'
    rw [← Scenario.descending_eq_of_perm (h.accords_perm A),
      ← Scenario.descending_eq_of_perm (h.accords_perm A')]
    exact hselects A' (hQ A' hA')
  | maxHamming =>
    intro A' hA'
    rw [← h.farthest_eq, ← h.farthest_eq]
    exact hselects A' (hQ A' hA')
  | slater =>
    intro A' hA'
    rw [← h.followed_eq, ← h.followed_eq]
    exact hselects A' (hQ A' hA')
  | majority => exact h.followsAll_iff.1 hselects
  | young =>
    obtain ⟨q, hq, hfollows, hmost⟩ := hselects
    -- Each part of one poll is like a part of the other, which goes both ways.
    obtain ⟨q₁, hq₁, halike⟩ := h.exists_part hq
    refine ⟨q₁, hq₁, halike.followsAll_iff.1 hfollows, fun A' q' hA' hq' hfollows' => ?_⟩
    obtain ⟨q₂, hq₂, halike'⟩ := h.symm.exists_part hq'
    rw [halike'.voters_eq, ← halike.voters_eq]
    exact hmost A' q₂ (hQ A' hA') hq₂ (halike'.followsAll_iff.1 hfollows')

end Alike

end Poll

end JudgmentAggregation
