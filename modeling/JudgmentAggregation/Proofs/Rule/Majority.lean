import JudgmentAggregation.Proofs.Rule.Evaluate

/-!
# Rules that preserve the majority

If some outcomes follow all the judgments of strict majorities, then Kemeny's rule, Leximax,
Slater's rule and Young's rule select these outcomes and no others
(`Scenario.selects_iff_majority`), provided that the outcomes to choose from give a value to every
label. For the first three an outcome that follows the majorities is one that agrees with as many
voters as any outcome on every label, so that its agreements dominate all others also when they are
put in descending order. For Young's rule it is one that follows the majority of all the voters, and
there is only one way to include all of them.

Young's rule has no room for large groups of voters, so that the selections are the same for groups
of less than 2⁶⁰ - 1 voters only (`Scenario.select_majority`).
-/

namespace JudgmentAggregation

namespace Scenario

variable {s : Scenario} {L : Lister} {o o' : Outcome} {l : Nat} {X : Outcome → Prop}
  {os : List Outcome} {m n : Nat} {ms ns included : List Nat}

/-! ### Dominated lists -/

/-- Inserting a lesser number into a lesser list leaves it the lesser one. -/
theorem forall₂_insertDescending (hmn : m ≤ n) (h : List.Forall₂ (· ≤ ·) ms ns)
    (hms : ms.Pairwise (· ≥ ·)) (hns : ns.Pairwise (· ≥ ·)) :
    List.Forall₂ (· ≤ ·) (insertDescending m ms) (insertDescending n ns) := by
  -- A number that is put into a descending list of smaller numbers comes first.
  have hfirst {k : Nat} {ks : List Nat} (hks : (k :: ks).Pairwise (· ≥ ·)) :
      insertDescending k ks = k :: ks := by
    rcases ks with _ | ⟨k', ks⟩
    · rfl
    · rw [insertDescending, if_pos ((List.pairwise_cons.1 hks).1 k' List.mem_cons_self)]
  induction h generalizing m n with
  | nil => exact .cons hmn .nil
  | @cons m' n' ms ns hle h ih =>
    have ih {m n : Nat} (hmn : m ≤ n) := ih hmn hms.of_cons hns.of_cons
    rw [insertDescending, insertDescending]
    by_cases hm : m' ≤ m <;> by_cases hn : n' ≤ n
    · rw [if_pos hm, if_pos hn]
      exact .cons hmn (.cons hle h)
    · rw [if_pos hm, if_neg hn, ← hfirst hms]
      exact .cons (by omega) (ih (by omega))
    · rw [if_neg hm, if_pos hn, ← hfirst hns]
      exact .cons (by omega) (ih (by omega))
    · rw [if_neg hm, if_neg hn]
      exact .cons hle (ih hmn)

/-- A list that is dominated by another one still is when both are put in descending order. -/
theorem forall₂_descending (h : List.Forall₂ (· ≤ ·) ms ns) :
    List.Forall₂ (· ≤ ·) (descending ms) (descending ns) := by
  induction h with
  | nil => exact .nil
  | cons hmn _ ih =>
    exact forall₂_insertDescending hmn ih (pairwise_descending _) (pairwise_descending _)

/-- A list that is less member by member does not come later. -/
theorem not_lex_of_forall₂ (h : List.Forall₂ (· ≤ ·) ms ns) : ¬ List.Lex (· < ·) ns ms := by
  induction h with
  | nil => nofun
  | cons hle _ ih =>
    rw [List.cons_lex_cons_iff]
    rintro (hlt | ⟨-, hlex⟩)
    · exact Nat.not_lt.2 hle hlt
    · exact ih hlex

/-- A list that is less member by member comes first, or is the same. -/
theorem lex_or_eq_of_forall₂ (h : List.Forall₂ (· ≤ ·) ms ns) :
    List.Lex (· < ·) ms ns ∨ ms = ns := by
  induction h with
  | nil => exact .inr rfl
  | cons hle _ ih =>
    rcases Nat.lt_or_eq_of_le hle with hlt | rfl
    · exact .inl (.rel hlt)
    · exact ih.imp .cons (congrArg _)

theorem total_le_of_forall₂ (h : List.Forall₂ (· ≤ ·) ms ns) : Count.total ms ≤ Count.total ns := by
  induction h with
  | nil => exact Nat.le_refl _
  | cons hle _ ih => exact Nat.add_le_add hle ih

/-- A dominated list with the same total is the same list. -/
theorem eq_of_forall₂_of_total_le (h : List.Forall₂ (· ≤ ·) ms ns)
    (htotal : Count.total ns ≤ Count.total ms) : ms = ns := by
  induction h with
  | nil => rfl
  | cons hle h ih =>
    have hrest := total_le_of_forall₂ h
    rw [Count.total, Count.total] at htotal
    rw [ih (by omega), Nat.le_antisymm hle (by omega)]

/-! ### Agreements -/

/-- The outcomes give a value to every label. -/
def Total (s : Scenario) (X : Outcome → Prop) : Prop :=
  ∀ o, X o → ∀ l ∈ s.agenda.labels, o.value? l ≠ none

/-- An outcome that agrees with the majority has its value on each label. -/
theorem value?_of_agreesWith (h : o.agreesWith s.majority = true) (hl : l ∈ s.agenda.labels)
    {b : Bool} (hside : strictSide (s.support l) (voters s.profile) = some b) :
    o.value? l = some b :=
  agreesWith_sides.1 h l hl b hside

/-- The agreement on a label is the support of the value that the outcome has. -/
theorem accord_of_value {b : Bool} (h : o.value? l = some b) :
    s.accord o l = if b then s.support l else voters s.profile - s.support l := by
  rw [accord, h]
  rcases b with _ | _ <;> rfl

/-- An outcome that follows the majorities agrees with as many voters as any other. -/
theorem accord_le_of_agreesWith (h : o.agreesWith s.majority = true) (hl : l ∈ s.agenda.labels)
    (hvalue : o.value? l ≠ none) (o' : Outcome) : s.accord o' l ≤ s.accord o l := by
  have hle := s.support_le l
  obtain ⟨b, hb⟩ := Option.ne_none_iff_exists'.1 hvalue
  -- The side that the outcome is on is not the smaller one.
  have hside {b'} (hside : strictSide (s.support l) (voters s.profile) = some b') : b = b' :=
    Option.some.inj (hb.symm.trans (value?_of_agreesWith h hl hside))
  rw [accord_of_value hb, accord]
  rcases b with _ | _
  · have hfew : ¬ voters s.profile < 2 * s.support l := fun hlt =>
      Bool.false_ne_true (hside (strictSide_eq_some_true.2 hlt))
    rw [if_neg Bool.false_ne_true]
    split <;> omega
  · have hmany : ¬ 2 * s.support l < voters s.profile := fun hlt =>
      Bool.false_ne_true (hside (strictSide_eq_some_false.2 hlt)).symm
    rw [if_pos rfl]
    split <;> omega

/-- An outcome that agrees with as many voters as one that follows the majorities follows them. -/
theorem agreesWith_of_accords_eq (h : o.agreesWith s.majority = true)
    (htotal : ∀ l ∈ s.agenda.labels, o'.value? l ≠ none) (heq : s.accords o' = s.accords o) :
    o'.agreesWith s.majority = true := by
  refine List.all_eq_true.2 fun ⟨l, b⟩ hmem => ?_
  obtain ⟨hl, hside⟩ := mem_majority.1 hmem
  obtain ⟨b', hb'⟩ := Option.ne_none_iff_exists'.1 (htotal l hl)
  have hle := s.support_le l
  have haccord : s.accord o' l = s.accord o l := List.map_inj_left.1 heq l hl
  rw [accord_of_value hb', accord_of_value (value?_of_agreesWith h hl hside)] at haccord
  rw [hb']
  -- The two sides are not equally great, so it is the same side.
  rcases b with _ | _ <;> rcases b' with _ | _
  · rfl
  · have hlt := strictSide_eq_some_false.1 hside
    rw [if_pos rfl, if_neg Bool.false_ne_true] at haccord
    omega
  · have hlt := strictSide_eq_some_true.1 hside
    rw [if_neg Bool.false_ne_true, if_pos rfl] at haccord
    omega
  · rfl

/-- On no label does an outcome have more agreement than one that follows the majority. -/
theorem forall₂_accords (h : o.agreesWith s.majority = true)
    (htotal : ∀ l ∈ s.agenda.labels, o.value? l ≠ none) (o' : Outcome) :
    List.Forall₂ (· ≤ ·) (s.accords o') (s.accords o) := by
  rw [accords, accords, List.forall₂_map_left_iff, List.forall₂_map_right_iff, List.forall₂_same]
  exact fun l hl => accord_le_of_agreesWith h hl (htotal l hl) o'

/-! ### All the voters -/

/-- The inclusion of all the voters. -/
def everyone (s : Scenario) : List Nat :=
  s.profile.map JudgmentSet.multiplicity

/-- To include everyone is one way to include voters. -/
theorem everyone_mem (s : Scenario) : Inclusion s.profile s.everyone := by
  rw [Inclusion, everyone, List.forall₂_map_right_iff, List.forall₂_same]
  exact fun j _ => Nat.le_refl _

/-- There is no other way to include as many voters. -/
theorem eq_everyone (h : Inclusion s.profile included)
    (htotal : voters s.profile ≤ Count.total included) : included = s.everyone := by
  refine eq_of_forall₂_of_total_le ?_ htotal
  rw [everyone, List.forall₂_map_right_iff]
  exact h.flip

/-- The support among everyone is the support. -/
theorem includedSupport_everyone (s : Scenario) (l : Nat) :
    s.includedSupport s.everyone l = s.support l := by
  rw [includedSupport, everyone, ← List.map_prod_left_eq_zip, List.filter_map, List.map_map]
  rfl

/-- The majority of everyone is the majority. -/
theorem majorityOf_everyone (s : Scenario) : s.majorityOf s.everyone = s.majority := by
  simp only [majorityOf, majority, includedSupport_everyone]
  rfl

/-! ### The rules -/

section Rules

variable (htotal : s.Total X) {a : Outcome} (ha : X a) (hagrees : a.agreesWith s.majority = true)

include htotal ha hagrees

/-- Kemeny's rule selects what follows the majority, if anything does. -/
theorem selects_kemeny_iff : s.Selects X o .kemeny ↔ X o ∧ o.agreesWith s.majority = true := by
  refine and_congr_right fun ho => ⟨fun hmost => ?_, fun h o' _ => ?_⟩
  · exact agreesWith_of_accords_eq hagrees (htotal o ho)
      (eq_of_forall₂_of_total_le (forall₂_accords hagrees (htotal a ha) o) (hmost a ha))
  · exact total_le_of_forall₂ (forall₂_accords h (htotal o ho) o')

/-- The leximax rule selects what follows the majority, if anything does. -/
theorem selects_leximax_iff : s.Selects X o .leximax ↔ X o ∧ o.agreesWith s.majority = true := by
  refine and_congr_right fun ho => ⟨fun hmost => ?_, fun h o' _ => ?_⟩
  · have hdominated := forall₂_accords hagrees (htotal a ha) o
    have heq := (lex_or_eq_of_forall₂ (forall₂_descending hdominated)).resolve_left (hmost a ha)
    -- The same numbers in descending order have the same total in any order.
    have hperm : (s.accords a).Perm (s.accords o) :=
      (perm_descending _).symm.trans ((List.Perm.of_eq heq.symm).trans (perm_descending _))
    exact agreesWith_of_accords_eq hagrees (htotal o ho)
      (eq_of_forall₂_of_total_le hdominated (Nat.le_of_eq (Count.total_perm hperm)))
  · exact not_lex_of_forall₂ (forall₂_descending (forall₂_accords h (htotal o ho) o'))

omit htotal in
/-- Slater's rule selects what follows the majority, if anything does. -/
theorem selects_slater_iff : s.Selects X o .slater ↔ X o ∧ o.agreesWith s.majority = true := by
  refine and_congr_right fun ho => ⟨fun hmost => ?_, fun h o' _ => ?_⟩
  · have hle := hmost a ha
    rw [followed_eq_length_iff.2 hagrees] at hle
    exact followed_eq_length_iff.1 (Nat.le_antisymm (followed_le_length o _) hle)
  · rw [followed_eq_length_iff.2 h]
    exact followed_le_length o' _

omit htotal in
/-- Young's rule selects what follows the majority, if anything does. -/
theorem selects_young_iff : s.Selects X o .young ↔ X o ∧ o.agreesWith s.majority = true := by
  have hall {o} (h : o.agreesWith s.majority = true) : s.Follows s.everyone o :=
    ⟨s.everyone_mem, s.majorityOf_everyone.symm ▸ h⟩
  refine and_congr_right fun ho =>
    ⟨?_, fun h => ⟨s.everyone, hall h, fun o' included _ hfollows => ?_⟩⟩
  · rintro ⟨included, ⟨hmem, hfollows⟩, hmost⟩
    obtain rfl := eq_everyone hmem (hmost a s.everyone ha (hall hagrees))
    rwa [majorityOf_everyone] at hfollows
  · exact total_included_le hfollows.1

/-- Rules that preserve the majority select the outcomes that follow it, if there are any. -/
theorem selects_iff_majority {r : Rule} (hr : r ≠ .maxHamming) (o : Outcome) :
    s.Selects X o r ↔ s.Selects X o .majority := by
  cases r with
  | kemeny => exact selects_kemeny_iff htotal ha hagrees
  | leximax => exact selects_leximax_iff htotal ha hagrees
  | young => exact selects_young_iff ha hagrees
  | slater => exact selects_slater_iff ha hagrees
  | majority => exact Iff.rfl
  | maxHamming => exact absurd rfl hr

end Rules

/-- **The majority is preserved.** The majority rule selects those of the given outcomes that follow
all the judgments of strict majorities. If there are any, then Kemeny's rule, Leximax and Slater's
rule select just these, and Young's rule does exactly if it has room for the voters of each group.
-/
theorem select_majority (hL : L.Correct)
    (hvoters : voters s.profile * (s.agenda.size + 1) < 9223372036854775808)
    (htotal : s.Total (· ∈ os)) :
    ∃ ms, s.select L .majority os = .ok ms ∧
      (∀ o, o ∈ ms ↔ o ∈ os ∧ o.agreesWith s.majority = true) ∧ (ms ≠ [] →
        s.select L .kemeny os = .ok ms ∧ s.select L .leximax os = .ok ms ∧
          s.select L .slater os = .ok ms ∧
          (s.select L .young os = .ok ms ↔
            ∀ j ∈ s.profile, j.multiplicity < Count.capacity 8)) := by
  have hmoderate := moderate_of_lt hvoters
  have hcomparable : s.Comparable os .majority := trivial
  obtain ⟨ms, hms, hsorted, hmem⟩ := select_spec hL hmoderate hcomparable
  refine ⟨ms, hms, hmem, fun hne => ?_⟩
  obtain ⟨a, ha⟩ := List.exists_mem_of_ne_nil ms hne
  obtain ⟨ha, hagrees⟩ := (hmem a).1 ha
  have hselect {r : Rule} (hr : r ≠ .maxHamming) (hroom : s.Comparable os r) :
      s.select L r os = .ok ms := by
    obtain ⟨selected, hselected, hsorted', hmem'⟩ := select_spec hL hmoderate hroom
    rw [hselected, SortedList.eq_of_mem_iff hsorted' hsorted fun o => ?_]
    rw [hmem', hmem, selects_iff_majority htotal ha hagrees hr]
  refine ⟨hselect nofun trivial, hselect nofun trivial, hselect nofun (.inr ⟨a, ha, hagrees⟩),
    fun hyoung => ?_, fun hroom => hselect nofun hroom⟩
  by_contra hcrowded
  have hroom : ¬ s.Comparable os .young := hcrowded
  rw [select_eq_fault hL hmoderate.voters hroom] at hyoung
  cases hyoung

/-- Of two outcomes that accept two issues, the one that rejects their conjunction follows all the
majorities, and four rules select it. -/
theorem select_majority_dilemma :
    let o := Outcome.ofPairs [(1, true), (2, true), (3, false)]
    let os := [Outcome.ofPairs [(1, true), (2, true), (3, true)], o]
    let s := Strategy.dilemma
    voters s.profile * (s.agenda.size + 1) < 9223372036854775808 ∧ s.Total (· ∈ os) ∧
      s.select .standard .majority os = .ok [o] ∧ s.select .standard .kemeny os = .ok [o] ∧
      s.select .standard .leximax os = .ok [o] ∧ s.select .standard .slater os = .ok [o] ∧
      s.select .standard .young os = .ok [o] := by
  intro o os s
  have hvoters : voters s.profile * (s.agenda.size + 1) < 9223372036854775808 := by decide
  have htotal : s.Total (· ∈ os) := by
    intro o ho
    revert o
    decide
  obtain ⟨ms, hms, -, hselect⟩ := select_majority Lister.standard_correct hvoters htotal
  have hmajority : s.select .standard .majority os = .ok [o] := by decide +kernel
  cases hms.symm.trans hmajority
  obtain ⟨hkemeny, hleximax, hslater, hyoung⟩ := hselect nofun
  exact ⟨hvoters, htotal, hmajority, hkemeny, hleximax, hslater, hyoung.2 (by decide)⟩

/-- A group of so many voters that the numbers of them that can be included do not fit into a list.
-/
def crowded : Scenario :=
  ⟨["a"], ⟨[.atom "a"]⟩, [], [], [⟨1152921504606846975, [.atom "a"], [1]⟩]⟩

theorem crowded_reachable : crowded.Reachable :=
  Reachable.empty.build
    [.variable "a", .agenda (.atom "a"), .judgment 1152921504606846975 [.atom "a"]]
    (by decide +kernel)

/-- All the voters accept the only issue, and one outcome does, but Young's rule does not select it.
-/
theorem select_young_crowded :
    let o := Outcome.ofPairs [(1, true)]
    let os := [o, Outcome.ofPairs [(1, false)]]
    crowded.Reachable ∧
      voters crowded.profile * (crowded.agenda.size + 1) < 9223372036854775808 ∧
      crowded.Total (· ∈ os) ∧ crowded.select .standard .majority os = .ok [o] ∧
      crowded.select .standard .young os = .error .fault := by
  intro o os
  have hroom : ¬ crowded.Comparable os .young := fun h =>
    absurd (h _ List.mem_cons_self) (by decide)
  refine ⟨crowded_reachable, by decide, ?_, by decide +kernel,
    select_eq_fault Lister.standard_correct (by decide) hroom⟩
  intro o ho
  revert o
  decide

end Scenario

end JudgmentAggregation
