import JudgmentAggregation.Count

/-!
# Counts that fit

The operations on counts are those of the natural numbers as long as the results are below the
limit. Sums are added up as `Count.total` does.
-/

namespace JudgmentAggregation

namespace Count

variable {m n : Nat} {ns : List Nat}

theorem check_eq_ok (h : n < limit) : check n = .ok n :=
  if_pos h

theorem add_eq_ok (h : m + n < limit) : add m n = .ok (m + n) :=
  check_eq_ok h

theorem sum_eq_ok (h : total ns < limit) : sum ns = .ok (total ns) := by
  rw [sum_eq_check_total, check_eq_ok h]

theorem sub_eq_ok (h : n ≤ m) : sub m n = .ok (m - n) :=
  if_pos h

/-- A sum that is a count is the sum of the numbers. -/
theorem of_sum_eq_ok (h : sum ns = .ok n) : total ns = n ∧ n < limit := by
  rw [sum_eq_check_total, check] at h
  split at h
  · next hlt =>
    cases h
    exact ⟨rfl, hlt⟩
  · cases h

theorem total_append (ms ns : List Nat) : total (ms ++ ns) = total ms + total ns := by
  induction ms with
  | nil => exact (Nat.zero_add _).symm
  | cons m ms ih => rw [List.cons_append, total, total, ih, Nat.add_assoc]

theorem total_perm {ms ns : List Nat} (h : ms.Perm ns) : total ms = total ns := by
  induction h with
  | nil => rfl
  | cons n _ ih => rw [total, total, ih]
  | swap m n ns => rw [total, total, total, total, Nat.add_left_comm]
  | trans _ _ ih ih' => exact ih.trans ih'

theorem total_le_of_sublist {ms ns : List Nat} (h : ms.Sublist ns) : total ms ≤ total ns := by
  induction h with
  | slnil => exact Nat.le_refl _
  | cons n _ ih =>
    rw [total]
    omega
  | cons_cons n _ ih =>
    rw [total, total]
    omega

theorem total_map_add {α : Type} (f g : α → Nat) (as : List α) :
    total (as.map fun a => f a + g a) = total (as.map f) + total (as.map g) := by
  induction as with
  | nil => rfl
  | cons a as ih =>
    simp only [List.map_cons, total, ih]
    omega

theorem total_map_const {α : Type} (n : Nat) (as : List α) :
    total (as.map fun _ => n) = n * as.length := by
  induction as with
  | nil => rfl
  | cons a as ih => rw [List.map_cons, total, ih, List.length_cons, Nat.mul_succ, Nat.add_comm]

/-- The factorials that are counts are those up to that of 20. -/
theorem exists_factorial (h : n ≤ 20) : ∃ m, factorial n = .ok m := by
  have hsome : ∀ n : Fin 21, (factorial n.val).toOption.isSome = true := by decide
  have hn := hsome ⟨n, Nat.lt_succ_of_le h⟩
  cases hfactorial : factorial n with
  | ok m => exact ⟨m, rfl⟩
  | error e =>
    rw [hfactorial] at hn
    cases hn

/-- No factorial from that of 21 on is a count. -/
theorem factorial_eq_fault (h : 20 < n) : factorial n = .error .fault := by
  induction h with
  | refl => rfl
  | step _ ih => rw [factorial, ih]

/-- No number is greater than the sum. -/
theorem le_total_of_mem (h : n ∈ ns) : n ≤ total ns := by
  obtain ⟨ms, ms', rfl⟩ := List.append_of_mem h
  rw [total_append, total]
  omega

end Count

theorem Result.ok_bind {α β : Type} (a : α) (f : α → Result β) :
    ((Except.ok a : Result α) >>= f) = f a :=
  rfl

/-- A computation of results for the members of a list gives all of them if none fails. -/
theorem Result.mapM_eq_ok {α β : Type} {f : α → Result β} {g : α → β} {as : List α}
    (h : ∀ a ∈ as, f a = .ok (g a)) : as.mapM f = .ok (as.map g) := by
  induction as with
  | nil => rfl
  | cons a as ih =>
    rw [List.mapM_cons, h a List.mem_cons_self, ih fun b hb => h b (List.mem_cons_of_mem _ hb)]
    rfl

/-- Where a computation of results for the members of a list gives some, none of them fails. -/
theorem Result.exists_of_mapM {α β : Type} {f : α → Result β} {as : List α} {bs : List β}
    (h : as.mapM f = .ok bs) : ∀ a ∈ as, ∃ b, f a = .ok b := by
  induction as generalizing bs with
  | nil => exact fun a ha => absurd ha List.not_mem_nil
  | cons a as ih =>
    rw [List.mapM_cons] at h
    cases ha : f a with
    | error e =>
      rw [ha] at h
      cases h
    | ok b =>
      rw [ha, Result.ok_bind] at h
      cases has : as.mapM f with
      | error e =>
        rw [has] at h
        cases h
      | ok bs' => exact List.forall_mem_cons.2 ⟨⟨b, ha⟩, ih has⟩

end JudgmentAggregation
