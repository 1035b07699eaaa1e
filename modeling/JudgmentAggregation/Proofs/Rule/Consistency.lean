import JudgmentAggregation.Proofs.Rule.Existence

/-!
# Choices from fewer outcomes

A rule compares outcomes with each other and not with what else there is. So where some of the
outcomes that a rule selects are still there among fewer, it selects just these
(`Scenario.selects_restrict`): one of them is enough to tell what is best. There is still room for
the rule as well (`Scenario.Comparable.restrict`), so that the list of the selected outcomes is cut
down to those that are left. In particular it does not depend on the order and on repetitions of the
outcomes, and selecting again from it changes nothing (`Scenario.select_consistent`).
-/

namespace JudgmentAggregation

namespace Scenario

variable {s : Scenario} {L : Lister} {r : Rule} {a o : Outcome} {os os' selected : List Outcome}

/-! ### Selected outcomes -/

/-- Where one of the greatest is among fewer, the greatest of these are those of the greatest that
are among them. -/
theorem greatest_restrict {ι κ : Type} (le : κ → κ → Prop)
    (htrans : ∀ {k k' k''}, le k k' → le k' k'' → le k k'') (key : ι → κ) {X S : ι → Prop} {a x : ι}
    (hsub : ∀ x, S x → X x) (ha : S a) (hmost : ∀ y, X y → le (key y) (key a)) :
    (S x ∧ ∀ y, S y → le (key y) (key x)) ↔ (X x ∧ ∀ y, X y → le (key y) (key x)) ∧ S x := by
  constructor
  · rintro ⟨hx, hle⟩
    exact ⟨⟨hsub x hx, fun y hy => htrans (hmost y hy) (hle a ha)⟩, hx⟩
  · rintro ⟨⟨-, hle⟩, hx⟩
    exact ⟨hx, fun y hy => hle y (hsub y hy)⟩

section Restrict

variable {X S : Outcome → Prop} (hsub : ∀ o, S o → X o) (ha : S a)

include hsub ha

/-- Young's rule selects from some of the outcomes what it selects from all, where it selects one of
them. -/
theorem selects_young_restrict (hselects : s.Selects X a .young) :
    s.Selects S o .young ↔ s.Selects X o .young ∧ S o := by
  obtain ⟨-, most, hfollows, hmost⟩ := hselects
  constructor
  · rintro ⟨ho, included, hincluded, hle⟩
    refine ⟨⟨hsub o ho, included, hincluded, fun o' included' ho' hincluded' => ?_⟩, ho⟩
    exact Nat.le_trans (hmost o' included' ho' hincluded') (hle a most ha hfollows)
  · rintro ⟨⟨-, included, hincluded, hle⟩, ho⟩
    exact ⟨ho, included, hincluded, fun o' included' ho' => hle o' included' (hsub o' ho')⟩

/-- Where one of the selected outcomes is among fewer, the selected ones of these are those of the
selected that are among them. -/
theorem selects_restrict (hselects : s.Selects X a r) :
    s.Selects S o r ↔ s.Selects X o r ∧ S o := by
  cases r with
  | kemeny =>
    exact greatest_restrict (· ≤ ·) Nat.le_trans (fun o => Count.total (s.accords o)) hsub ha
      hselects.2
  | leximax =>
    simp only [Selects, ← isLE_cmpNumbers] at hselects ⊢
    exact greatest_restrict (fun ms ns => (cmpNumbers ms ns).isLE) Std.TransCmp.isLE_trans
      (fun o => descending (s.accords o)) hsub ha hselects.2
  | maxHamming =>
    exact greatest_restrict (· ≥ ·) (fun h h' => Nat.le_trans h' h) s.farthestDistance hsub ha
      hselects.2
  | slater =>
    exact greatest_restrict (· ≤ ·) Nat.le_trans (fun o => o.followed s.majority) hsub ha hselects.2
  | majority => exact ⟨fun h => ⟨⟨hsub o h.1, h.2⟩, h.1⟩, fun h => ⟨h.2, h.1.2⟩⟩
  | young => exact selects_young_restrict hsub ha hselects

end Restrict

/-! ### Lists of selected outcomes -/

theorem Comparable.congr (hmem : ∀ o, o ∈ os' ↔ o ∈ os) :
    s.Comparable os' r ↔ s.Comparable os r := by
  cases r with
  | slater => simp only [Comparable, hmem]
  | kemeny | leximax | maxHamming | majority | young => exact Iff.rfl

/-- There is room for a rule among other outcomes if one that the rule selects is still there. -/
theorem Comparable.restrict (hr : s.Comparable os r) (ha : a ∈ os')
    (hselects : s.Selects (· ∈ os) a r) : s.Comparable os' r := by
  cases r with
  | slater =>
    refine hr.imp_right ?_
    rintro ⟨o, ho, hagrees⟩
    -- The outcome follows as many majorities as one that follows all of them.
    have hmost := hselects.2 o ho
    rw [followed_eq_length_iff.2 hagrees] at hmost
    exact ⟨a, ha, followed_eq_length_iff.1 (Nat.le_antisymm (followed_le_length a _) hmost)⟩
  | kemeny | leximax | maxHamming | majority | young => exact hr

/-- The outcomes selected from a list are those that the rule selects. -/
theorem mem_of_select (hL : L.Correct) (h : s.Moderate) (hselect : s.select L r os = .ok selected) :
    SortedList.Sorted selected ∧ ∀ o, o ∈ selected ↔ s.Selects (· ∈ os) o r := by
  obtain ⟨_, hspec, hsorted, hmem⟩ := select_spec hL h (comparable_of_select hL h.voters hselect)
  cases hselect.symm.trans hspec
  exact ⟨hsorted, hmem⟩

/-- The selection depends on which outcomes there are only. -/
theorem select_congr (hL : L.Correct) (h : s.Moderate) (hmem : ∀ o, o ∈ os' ↔ o ∈ os) :
    s.select L r os' = s.select L r os := by
  by_cases hr : s.Comparable os r
  · exact select_eq_of_selects_iff hL hL h h ((Comparable.congr hmem).2 hr) hr fun _ =>
      Selects.congr hmem r
  · rw [select_eq_fault hL h.voters hr,
      select_eq_fault hL h.voters ((Comparable.congr hmem).not.2 hr)]

/-- Where a selected outcome is among fewer, what is selected is cut down to those. -/
theorem select_restrict (hL : L.Correct) (h : s.Moderate) (hsub : ∀ o ∈ os', o ∈ os)
    (hselect : s.select L r os = .ok selected) (ha : ∃ a ∈ selected, a ∈ os') :
    ∃ chosen, s.select L r os' = .ok chosen ∧ SortedList.Sorted chosen ∧
      ∀ o, o ∈ chosen ↔ o ∈ selected ∧ o ∈ os' := by
  obtain ⟨-, hmem⟩ := mem_of_select hL h hselect
  obtain ⟨a, haselected, ha⟩ := ha
  have haselects := (hmem a).1 haselected
  obtain ⟨chosen, hchosen, hsorted, hmem'⟩ :=
    select_spec hL h ((comparable_of_select hL h.voters hselect).restrict ha haselects)
  refine ⟨chosen, hchosen, hsorted, fun o => ?_⟩
  rw [hmem', hmem, selects_restrict hsub ha haselects]

/-- Nothing is selected only from nothing, or by the majority rule. -/
theorem select_nil (hL : L.Correct) (h : s.Moderate) (hselect : s.select L r os = .ok []) :
    s.select L r [] = .ok [] := by
  obtain ⟨-, hmem⟩ := mem_of_select hL h hselect
  rcases os with _ | ⟨a, os⟩
  · exact hselect
  · by_cases hr : r = .majority
    · subst hr
      have hroom : s.Comparable [] .majority := trivial
      obtain ⟨chosen, hchosen, -, hmem'⟩ := select_spec hL h hroom
      have hnil : chosen = [] := List.eq_nil_iff_forall_not_mem.2 fun o ho =>
        List.not_mem_nil ((hmem' o).1 ho).mem
      rw [hchosen, hnil]
    · obtain ⟨o, ho⟩ := exists_selects hr List.mem_cons_self
      exact absurd ((hmem o).2 ho) List.not_mem_nil

/-- Selecting again changes nothing. -/
theorem select_select (hL : L.Correct) (h : s.Moderate) (hselect : s.select L r os = .ok selected) :
    s.select L r selected = .ok selected := by
  obtain ⟨hsorted, hmem⟩ := mem_of_select hL h hselect
  rcases selected with _ | ⟨a, selected⟩
  · exact select_nil hL h hselect
  · obtain ⟨chosen, hchosen, hsorted', hmem'⟩ := select_restrict hL h
      (fun o ho => ((hmem o).1 ho).mem) hselect ⟨a, List.mem_cons_self, List.mem_cons_self⟩
    rw [hchosen, SortedList.eq_of_mem_iff hsorted' hsorted fun o => ?_]
    rw [hmem', and_self]

/-- **Choices are consistent.** If one of the outcomes selected from a list is in a smaller list,
then the selection from the smaller list has those of the selected outcomes that are in it, in order
and each once. Lists with the same outcomes have the same selection, or none if there is no room for
the rule, and selecting again from a selection changes nothing. -/
theorem select_consistent (hL : L.Correct)
    (hvoters : voters s.profile * (s.agenda.size + 1) < 9223372036854775808) (r : Rule)
    (X : List Outcome) :
    (∀ S selected, (∀ o ∈ S, o ∈ X) → s.select L r X = .ok selected → (∃ a ∈ selected, a ∈ S) →
        ∃ chosen, s.select L r S = .ok chosen ∧ SortedList.Sorted chosen ∧
          ∀ o, o ∈ chosen ↔ o ∈ selected ∧ o ∈ S) ∧
      (∀ Y, (∀ o, o ∈ Y ↔ o ∈ X) → s.select L r Y = s.select L r X) ∧
      ∀ selected, s.select L r X = .ok selected → s.select L r selected = .ok selected := by
  have hmoderate := moderate_of_lt hvoters
  refine ⟨fun S selected hsub hselect ha => ?_, fun Y hmem => ?_, fun selected hselect => ?_⟩
  · exact select_restrict hL hmoderate hsub hselect ha
  · exact select_congr hL hmoderate hmem
  · exact select_select hL hmoderate hselect

/-- On the dilemma two of the three selected outcomes are left, listed twice among others that
follow fewer majorities or have no value for some label. -/
theorem select_consistent_dilemma :
    let o := Outcome.ofPairs [(1, true), (2, false), (3, false)]
    let o' := Outcome.ofPairs [(1, true), (2, true), (3, true)]
    let S := [o', Outcome.ofPairs [(1, true), (7, false)], o, o']
    let s := Strategy.dilemma
    voters s.profile * (s.agenda.size + 1) < 9223372036854775808 ∧
      ∃ chosen, s.select .standard .slater S = .ok chosen ∧ SortedList.Sorted chosen ∧
        ∀ p, p ∈ chosen ↔
          p ∈ [Outcome.ofPairs [(1, false), (2, true), (3, false)], o, o'] ∧ p ∈ S := by
  intro o o' S s
  have hvoters : voters s.profile * (s.agenda.size + 1) < 9223372036854775808 := by decide
  have hselect : s.select .standard .slater
      (Outcome.ofPairs [(1, false), (2, true), (3, false)] :: S) =
        .ok [Outcome.ofPairs [(1, false), (2, true), (3, false)], o, o'] := by decide +kernel
  exact ⟨hvoters, (select_consistent Lister.standard_correct hvoters .slater _).1 S _
    (fun _ => List.mem_cons_of_mem _) hselect ⟨o, by decide, by decide⟩⟩

end Scenario

end JudgmentAggregation
