import JudgmentAggregation.Proofs.Bound.Normal
import Mathlib.Order.Bounds.Basic

/-!
# The range of a weighted sum

A normal form shows the range of a sum: its constant is the least value that the sum takes in a
model, and the constant with all the weights is the greatest one (`Term.normalize_exact`). No
weights have to add up to a count for this but those on one literal, and those that the constant is
made of.
-/

namespace JudgmentAggregation

/-- A model can give the variables below any number any values. -/
theorem Model.exists_valuation_eq (A : Valuation Nat) (n : Nat) :
    ∃ m : Model, ∀ v < n, m.valuation v = A v := by
  refine ⟨⟨((List.range n).map fun v => some (A v)).toArray⟩, fun v hv => ?_⟩
  simp [valuation, value?, List.getElem?_range hv]

namespace Term

variable {ts : List (Term Nat)} {n : Normal}

/-- The values of a sum are those that it has in models. -/
theorem exists_model_value_eq (A : Valuation Nat) (ts : List (Term Nat)) :
    ∃ m : Model, value m.valuation ts = value A ts := by
  obtain ⟨m, hm⟩ := Model.exists_valuation_eq A (Count.total (ts.map fun t => t.literal.var) + 1)
  refine ⟨m, value_congr fun t ht => hm _ ?_⟩
  exact Nat.lt_succ_of_le (Count.le_total_of_mem (List.mem_map_of_mem ht))

/-- The value of a sum is a count exactly if that of its normal form is one, and they are equal. -/
theorem IsNormal.count_eq (h : IsNormal ts n) (A : Valuation Nat) :
    count A ts = (do Count.add n.constant (← count A n.terms)) := by
  have hcount (us : List (Term Nat)) : count A us = Count.check (value A us) :=
    Count.sum_eq_check_total _
  rw [hcount, hcount, h.value_eq]
  by_cases hlt : value A n.terms < Count.limit
  · rw [Count.check_eq_ok hlt]
    rfl
  · have hsum : ¬ n.constant + value A n.terms < Count.limit := by omega
    rw [Count.check, Count.check, if_neg hlt, if_neg hsum]
    rfl

/-- The constant of a normal form is the least value of the sum. -/
theorem IsNormal.isLeast (h : IsNormal ts n) :
    IsLeast (Set.range fun m : Model => value m.valuation ts) n.constant := by
  constructor
  · obtain ⟨A, hA⟩ := h.exists_value_eq_constant
    obtain ⟨m, hm⟩ := exists_model_value_eq A ts
    exact ⟨m, hm.trans hA⟩
  · rintro _ ⟨m, rfl⟩
    have hvalue := h.value_eq m.valuation
    dsimp only
    omega

/-- The constant with all the weights is the greatest value of the sum. -/
theorem IsNormal.isGreatest (h : IsNormal ts n) :
    IsGreatest (Set.range fun m : Model => value m.valuation ts) (n.constant + total n.terms) := by
  constructor
  · obtain ⟨A, hA⟩ := h.exists_value_eq_total
    obtain ⟨m, hm⟩ := exists_model_value_eq A ts
    exact ⟨m, hm.trans hA⟩
  · rintro _ ⟨m, rfl⟩
    have hvalue := h.value_eq m.valuation
    have hle := value_le_total m.valuation n.terms
    dsimp only
    omega

/-- **Normal forms are exact.** A sum has a normal form exactly if its weights fit, in particular if
they add up to a count. The value of the sum is the constant with the value of the terms of the
normal form, also as counts. These terms have variables of the sum, each of them once, and positive
weights. The constant is the least value of the sum in a model, and the constant with all the
weights is the greatest one. -/
theorem normalize_exact (ts : List (Term Nat)) :
    ((∃ n, normalize ts = .ok n) ↔ Fits ts) ∧ (total ts < Count.limit → Fits ts) ∧
    ∀ n, normalize ts = .ok n →
      (∀ A, value A ts = n.constant + value A n.terms) ∧
      (∀ A, count A ts = (do Count.add n.constant (← count A n.terms))) ∧
      (n.terms.map fun t => t.literal.var).Nodup ∧ (∀ t ∈ n.terms, 0 < t.weight) ∧
      (∀ t ∈ n.terms, ∃ u ∈ ts, u.literal.var = t.literal.var) ∧
      IsLeast (Set.range fun m : Model => value m.valuation ts) n.constant ∧
      IsGreatest (Set.range fun m : Model => value m.valuation ts)
        (n.constant + total n.terms) := by
  refine ⟨exists_normalize_iff, fits_of_total_lt, fun n hn => ?_⟩
  have h := isNormal_normalize hn
  exact ⟨h.value_eq, h.count_eq, h.nodup, h.weight_pos, h.var_mem, h.isLeast, h.isGreatest⟩

/-- Of the first variable more is on the positive literal, of the second one as much on both, and
the third one has its weight in two terms. The weights on the last variable are too much for a count
together, but its least value is not. -/
theorem normalize_exact_cancelling :
    let ts : List (Term Nat) := [⟨.pos 1, 3⟩, ⟨.neg 1, 1⟩, ⟨.pos 2, 2⟩, ⟨.neg 2, 2⟩, ⟨.neg 3, 1⟩,
      ⟨.neg 3, 1⟩, ⟨.pos 4, 18446744073709551615⟩, ⟨.neg 4, 7⟩]
    normalize ts = .ok ⟨10, [⟨.pos 1, 2⟩, ⟨.neg 3, 2⟩, ⟨.pos 4, 18446744073709551608⟩]⟩ ∧
      ¬ total ts < Count.limit ∧ Fits ts ∧
      IsLeast (Set.range fun m : Model => value m.valuation ts) 10 ∧
      IsGreatest (Set.range fun m : Model => value m.valuation ts) 18446744073709551622 := by
  intro ts
  have hnormal : normalize ts =
      .ok ⟨10, [⟨.pos 1, 2⟩, ⟨.neg 3, 2⟩, ⟨.pos 4, 18446744073709551608⟩]⟩ := by decide +kernel
  obtain ⟨hfits, -, hexact⟩ := normalize_exact ts
  obtain ⟨-, -, -, -, -, hleast, hgreatest⟩ := hexact _ hnormal
  exact ⟨hnormal, by decide +kernel, hfits.1 ⟨_, hnormal⟩, hleast, hgreatest⟩

end Term

end JudgmentAggregation
