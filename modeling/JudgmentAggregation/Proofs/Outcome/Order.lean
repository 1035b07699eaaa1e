import JudgmentAggregation.Outcome.Basic
import JudgmentAggregation.Proofs.SortedList

/-!
# The order of outcomes

Outcomes are ordered by their lists of labels with values, lexicographically. This is a linear
order, so that a list of outcomes in order, each once, is determined by which outcomes it has
(`SortedList.eq_of_mem_iff`).
-/

namespace JudgmentAggregation

namespace Outcome

/-- The comparison of two labels with values: the labels first, then the values. -/
def cmpValue : Nat × Bool → Nat × Bool → Ordering :=
  compareLex (compareOn Prod.fst) (compareOn Prod.snd)

instance : Std.LawfulEqCmp cmpValue where
  compare_self := by
    intro p
    simp [cmpValue, compareLex, compareOn]
  eq_of_compare := by
    intro p q h
    obtain ⟨hfst, hsnd⟩ := compareLex_eq_eq.1 h
    exact Prod.ext (Std.LawfulEqOrd.eq_of_compare hfst) (Std.LawfulEqOrd.eq_of_compare hsnd)

theorem cmpValues_eq (ps qs : List (Nat × Bool)) :
    cmpValues ps qs = List.compareLex cmpValue ps qs := by
  induction ps generalizing qs with
  | nil => cases qs <;> rfl
  | cons p ps ih =>
    cases qs with
    | nil => rfl
    | cons q qs =>
      rw [List.compareLex_cons_cons, ← ih, cmpValues]
      simp only [cmpValue, compareLex, compareOn, Ordering.then_assoc]

theorem compare_eq (o o' : Outcome) :
    compare o o' = List.compareLex cmpValue o.values o'.values :=
  cmpValues_eq o.values o'.values

instance : Std.TransCmp cmpValue :=
  inferInstanceAs (Std.TransCmp (compareLex (compareOn Prod.fst) (compareOn Prod.snd)))

instance : Std.TransOrd Outcome where
  eq_swap := by
    intro o o'
    rw [compare_eq, compare_eq]
    exact Std.OrientedCmp.eq_swap
  isLE_trans := by
    intro o o' o'' h h'
    rw [compare_eq] at h h' ⊢
    exact Std.TransCmp.isLE_trans h h'

instance : Std.LawfulEqOrd Outcome where
  compare_self := by
    intro o
    rw [compare_eq]
    exact Std.ReflCmp.compare_self
  eq_of_compare := by
    intro o o' h
    rw [compare_eq] at h
    have hvalues := Std.LawfulEqCmp.eq_of_compare h
    cases o
    cases o'
    simpa using hvalues

end Outcome

end JudgmentAggregation
