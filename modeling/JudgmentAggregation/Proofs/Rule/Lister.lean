import JudgmentAggregation.Proofs.Count
import JudgmentAggregation.Rule.Lister
import Mathlib.Data.List.Forall2

/-!
# Correct listers

A lister is correct if it lists what there is to choose and nothing else (`Lister.Correct`). Up to
20 judgments can be chosen from, as the factorial of 21 is too large for a count. The lister that
goes from the first judgments and numbers to the last ones is correct (`Lister.standard_correct`).
-/

namespace JudgmentAggregation

namespace Lister

variable {α : Type} {n : Nat} {ls : List (Nat × Bool)}

/-- Some lists of judgments are **the choices** of `n` of some judgments. -/
def AreChoices (ls : List (Nat × Bool)) (n : Nat) (cs : List (List (Nat × Bool))) : Prop :=
  ∀ sub, sub ∈ cs ↔ sub.Sublist ls ∧ sub.length = n

/-- The only choice of no judgments is that of none. -/
theorem areChoices_zero : AreChoices ls 0 [[]] := by
  intro sub
  rw [List.mem_singleton, List.length_eq_zero_iff, and_iff_right_of_imp]
  rintro rfl
  exact List.nil_sublist ls

/-- The only choice of as many judgments as there are is that of all. -/
theorem areChoices_length : AreChoices ls ls.length [ls] := by
  intro sub
  rw [List.mem_singleton]
  constructor
  · rintro rfl
    exact ⟨List.Sublist.refl _, rfl⟩
  · rintro ⟨hsub, hlength⟩
    exact hsub.eq_of_length hlength

/-- A lister is **correct** when it lists the choices of some but not all of up to 20 judgments,
faults on more judgments, and lists the choices of one number from each of some lists, none of which
is empty. -/
structure Correct (L : Lister) : Prop where
  choose_few ls n : 0 < n → n < ls.length → ls.length ≤ 20 →
    ∃ cs, L.choose ls n = .ok cs ∧ AreChoices ls n cs
  choose_many ls n : 0 < n → n < ls.length → 20 < ls.length → L.choose ls n = .error .fault
  mem_product domains c : domains ≠ [] → [] ∉ domains →
    (c ∈ L.product domains ↔ List.Forall₂ (fun domain n => n ∈ domain) domains c)

/-! ### The standard lister -/

/-- The lists given are the sublists of the length. -/
theorem mem_sublistsOfLength {xs sub : List α} :
    sub ∈ sublistsOfLength n xs ↔ sub.Sublist xs ∧ sub.length = n := by
  induction n, xs using sublistsOfLength.induct generalizing sub with
  | case1 xs =>
    rw [sublistsOfLength, List.mem_singleton, List.length_eq_zero_iff]
    refine ⟨?_, fun h => h.2⟩
    rintro rfl
    exact ⟨List.nil_sublist xs, rfl⟩
  | case2 n =>
    rw [sublistsOfLength]
    refine ⟨fun h => absurd h List.not_mem_nil, ?_⟩
    rintro ⟨hsub, hlength⟩
    rw [List.sublist_nil.1 hsub] at hlength
    cases hlength
  | case3 n x xs hshort =>
    rw [sublistsOfLength, if_pos hshort]
    refine ⟨fun h => absurd h List.not_mem_nil, ?_⟩
    rintro ⟨hsub, hlength⟩
    have := hsub.length_le
    rw [List.length_cons] at this
    omega
  | case4 n x xs hlong ih ih' =>
    rw [sublistsOfLength, if_neg hlong, List.mem_append, List.mem_map, ih',
      List.sublist_cons_iff]
    constructor
    · rintro (⟨t, ht, rfl⟩ | ⟨hsub, hlength⟩)
      · obtain ⟨hsub, hlength⟩ := ih.1 ht
        exact ⟨.inr ⟨t, rfl, hsub⟩, by rw [List.length_cons, hlength]⟩
      · exact ⟨.inl hsub, hlength⟩
    · rintro ⟨hsub | ⟨t, rfl, hsub⟩, hlength⟩
      · exact .inr ⟨hsub, hlength⟩
      · exact .inl ⟨t, ih.2 ⟨hsub, Nat.succ.inj hlength⟩, rfl⟩

/-- The lists given have a member of each list. -/
theorem mem_sections {ass : List (List α)} {c : List α} :
    c ∈ sections ass ↔ List.Forall₂ (fun as a => a ∈ as) ass c := by
  induction ass generalizing c with
  | nil => simp [sections]
  | cons as ass ih =>
    simp only [sections, List.mem_flatMap, List.mem_map, List.forall₂_cons_left_iff, ih]
    constructor
    · rintro ⟨a, ha, c, hc, rfl⟩
      exact ⟨a, c, ha, hc, rfl⟩
    · rintro ⟨a, c, ha, hc, rfl⟩
      exact ⟨a, ha, c, hc, rfl⟩

theorem standard_correct : Correct .standard where
  choose_few ls n _ _ hlength := by
    obtain ⟨m, hm⟩ := Count.exists_factorial hlength
    refine ⟨sublistsOfLength n ls, ?_, fun _ => mem_sublistsOfLength⟩
    simp only [standard, hm]
    rfl
  choose_many ls n _ _ hlength := by
    simp only [standard, Count.factorial_eq_fault hlength]
    rfl
  mem_product _ _ _ _ := mem_sections

end Lister

end JudgmentAggregation
