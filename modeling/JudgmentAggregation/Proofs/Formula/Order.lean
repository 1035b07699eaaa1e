import JudgmentAggregation.Formula.Order
import JudgmentAggregation.Proofs.Formula.Basic

/-!
# The order of formulas is linear

The comparison of formulas tells any two different formulas apart and is transitive, so that finite
sets and maps of formulas are determined by what they have.
-/

namespace JudgmentAggregation

namespace Formula

variable {f g h : Formula} {fs gs hs : List Formula}

/-- Lists compare equal only if they are, if their members do so. -/
theorem cmpList_eq_iff (hcmp : ∀ f ∈ fs, ∀ g, cmp f g = .eq ↔ f = g) :
    cmpList fs gs = .eq ↔ fs = gs := by
  induction fs generalizing gs with
  | nil => cases gs <;> simp [cmpList]
  | cons f fs ih =>
    obtain ⟨hf, hfs⟩ := List.forall_mem_cons.1 hcmp
    cases gs with
    | nil => simp [cmpList]
    | cons g gs =>
      rw [List.cons.injEq, ← hf g, ← ih hfs, cmpList]
      cases cmp f g <;> simp

/-- Formulas compare equal only if they are. -/
theorem cmp_eq_iff : cmp f g = .eq ↔ f = g := by
  induction f generalizing g with
  | atom a => cases g <;> simp [cmp, rank]
  | not f ih => cases g <;> simp [cmp, rank, ih]
  | and fs ih | or fs ih =>
    have h (gs) : cmpList fs gs = .eq ↔ fs = gs := cmpList_eq_iff fun f hf g => ih f hf
    cases g <;> simp [cmp, rank, h]
  | implies f f' hf hf' =>
    cases g with
    | implies g g' =>
      rw [implies.injEq, ← hf, ← hf', cmp]
      cases cmp f g <;> simp
    | _ => simp [cmp, rank]

instance : Std.LawfulEqOrd Formula where
  compare_self := cmp_eq_iff.2 rfl
  eq_of_compare := cmp_eq_iff.1

/-! ### Swapped formulas -/

/-- The comparison of lists can be turned round, if that of their members can. -/
theorem cmpList_swap (hcmp : ∀ f ∈ fs, ∀ g, cmp f g = (cmp g f).swap) :
    cmpList fs gs = (cmpList gs fs).swap := by
  induction fs generalizing gs with
  | nil => cases gs <;> rfl
  | cons f fs ih =>
    obtain ⟨hf, hfs⟩ := List.forall_mem_cons.1 hcmp
    rcases gs with _ | ⟨g, gs⟩
    · rfl
    · rw [cmpList, cmpList, hf g, ih hfs]
      rcases cmp g f <;> rfl

/-- The comparison of formulas can be turned round. -/
theorem cmp_swap : cmp f g = (cmp g f).swap := by
  induction f generalizing g with
  | atom a =>
    cases g with
    | atom b => exact Std.OrientedOrd.eq_swap
    | _ => rfl
  | not f ih =>
    cases g with
    | not g => exact ih
    | _ => rfl
  | and fs ih =>
    cases g with
    | and gs => exact cmpList_swap fun f hf g => ih f hf
    | _ => rfl
  | or fs ih =>
    cases g with
    | or gs => exact cmpList_swap fun f hf g => ih f hf
    | _ => rfl
  | implies f f' hf hf' =>
    cases g with
    | implies g g' =>
      rw [cmp, cmp, hf, hf']
      rcases cmp g f <;> rfl
    | _ => rfl

/-! ### Transitivity -/

/-- Lists compare as their first members do, or if these are equal as the others do. -/
theorem cmpList_cons_lt :
    cmpList (f :: fs) (g :: gs) = .lt ↔ cmp f g = .lt ∨ f = g ∧ cmpList fs gs = .lt := by
  rw [cmpList, ← cmp_eq_iff]
  cases cmp f g <;> simp

/-- Implications compare by their premises first. -/
theorem cmp_implies_lt {f' g' : Formula} :
    cmp (.implies f f') (.implies g g') = .lt ↔ cmp f g = .lt ∨ f = g ∧ cmp f' g' = .lt := by
  rw [cmp, ← cmp_eq_iff]
  cases cmp f g <;> simp

/-- The order of lists is transitive, if that of their members is. -/
theorem cmpList_lt_trans
    (hcmp : ∀ f ∈ fs, ∀ {g h}, cmp f g = .lt → cmp g h = .lt → cmp f h = .lt)
    (hfg : cmpList fs gs = .lt) (hgh : cmpList gs hs = .lt) : cmpList fs hs = .lt := by
  induction fs generalizing gs hs with
  | nil =>
    rcases hs with _ | ⟨h, hs⟩
    · cases gs <;> cases hgh
    · rfl
  | cons f fs ih =>
    obtain ⟨hf, hfs⟩ := List.forall_mem_cons.1 hcmp
    rcases gs with _ | ⟨g, gs⟩
    · cases hfg
    rcases hs with _ | ⟨h, hs⟩
    · cases hgh
    rw [cmpList_cons_lt] at hfg hgh ⊢
    rcases hfg with hfg | ⟨rfl, hfg⟩ <;> rcases hgh with hgh | ⟨rfl, hgh⟩
    · exact .inl (hf hfg hgh)
    · exact .inl hfg
    · exact .inl hgh
    · exact .inr ⟨rfl, ih hfs hfg hgh⟩

/-- A formula before another one is of no higher rank. -/
theorem rank_le_of_cmp (h : cmp f g = .lt) : f.rank ≤ g.rank := by
  cases f <;> cases g <;> first
    | exact Nat.le_refl _
    | exact Nat.le_of_lt (Nat.compare_eq_lt.1 h)

/-- A formula of lower rank comes first. -/
theorem cmp_of_rank_lt (h : f.rank < g.rank) : cmp f g = .lt := by
  cases f <;> cases g <;> first
    | exact absurd h (Nat.lt_irrefl _)
    | exact Nat.compare_eq_lt.2 h

/-- For transitivity only formulas of one kind have to be looked into. -/
theorem cmp_lt_trans_of_rank
    (hsame : ∀ {g h}, f.rank = g.rank → g.rank = h.rank → cmp f g = .lt → cmp g h = .lt →
      cmp f h = .lt) (hfg : cmp f g = .lt) (hgh : cmp g h = .lt) : cmp f h = .lt := by
  have hle := rank_le_of_cmp hfg
  have hle' := rank_le_of_cmp hgh
  by_cases hlt : f.rank < h.rank
  · exact cmp_of_rank_lt hlt
  · exact hsame (by omega) (by omega) hfg hgh

/-- The order of formulas is transitive. -/
theorem cmp_lt_trans (hfg : cmp f g = .lt) (hgh : cmp g h = .lt) : cmp f h = .lt := by
  -- Formulas with different heads compare by these, so it is left that all three have the same.
  induction f generalizing g h with
  | atom a =>
    refine cmp_lt_trans_of_rank (fun {g h} hrank hrank' hfg hgh => ?_) hfg hgh
    cases g <;> cases hrank
    cases h <;> cases hrank'
    exact @Std.TransCmp.lt_trans String compare _ _ _ _ hfg hgh
  | not f ih =>
    refine cmp_lt_trans_of_rank (fun {g h} hrank hrank' hfg hgh => ?_) hfg hgh
    cases g <;> cases hrank
    cases h <;> cases hrank'
    exact ih hfg hgh
  | and fs ih | or fs ih =>
    refine cmp_lt_trans_of_rank (fun {g h} hrank hrank' hfg hgh => ?_) hfg hgh
    cases g <;> cases hrank
    cases h <;> cases hrank'
    exact cmpList_lt_trans (fun f hf => ih f hf) hfg hgh
  | implies f f' hf hf' =>
    refine cmp_lt_trans_of_rank (fun {g h} hrank hrank' hfg hgh => ?_) hfg hgh
    cases g <;> cases hrank
    cases h <;> cases hrank'
    rw [cmp_implies_lt] at hfg hgh ⊢
    rcases hfg with hfg | ⟨rfl, hfg⟩ <;> rcases hgh with hgh | ⟨rfl, hgh⟩
    · exact .inl (hf hfg hgh)
    · exact .inl hfg
    · exact .inl hgh
    · exact .inr ⟨rfl, hf' hfg hgh⟩

instance : Std.TransOrd Formula where
  eq_swap := cmp_swap
  isLE_trans {f g h} hfg hgh := by
    rcases Ordering.isLE_iff_eq_lt_or_eq_eq.1 hfg with hfg | hfg
    · rcases Ordering.isLE_iff_eq_lt_or_eq_eq.1 hgh with hgh | hgh
      · exact Ordering.isLE_of_eq_lt (cmp_lt_trans hfg hgh)
      · exact cmp_eq_iff.1 hgh ▸ Ordering.isLE_of_eq_lt hfg
    · exact cmp_eq_iff.1 hfg ▸ hgh

end Formula

end JudgmentAggregation
