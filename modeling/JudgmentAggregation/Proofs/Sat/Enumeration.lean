import JudgmentAggregation.Proofs.Optimization.Meaning
import JudgmentAggregation.Sat.Exhaustive

/-!
# Enumerating the models of a CNF formula

The enumerator of a CNF formula lists what its models look like on the projection, whatever the
backend does: the names of the projection may be absent from the formula, the models that the
backend finds may leave variables without a value, and the solving calls before a failure count
(`Enumerator.ofCnf_exact`).
-/

namespace JudgmentAggregation

namespace Enumerator

open VariableIndex

variable {γ : Type} {B : Backend γ}

/-- All the calls but the last one find a model. Without names to list, one model is enough. -/
theorem verdictsOf_ofCnf (F : Cnf String) (vars : List String) (ms : List NamedModel) :
    (ofCnf F vars).verdictsOf ms = if vars.isEmpty && !ms.isEmpty then [.satisfiable]
      else List.replicate ms.length .satisfiable ++ [.unsatisfiable] := by
  have hlength := (numbers_insertAll.related vars _ orderly_empty).length_eq
  have hempty : (ofCnf F vars).projection.isEmpty = vars.isEmpty := by
    rw [Bool.eq_iff_iff, List.isEmpty_iff_length_eq_zero, List.isEmpty_iff_length_eq_zero, hlength]
    rfl
  rw [verdictsOf, hempty]

/-- Only the solving call behind the models is given up. -/
theorem length_of_unknown {ms : List NamedModel} {k j : Nat}
    (h : ((failedVerdicts ms).take k)[j]? = some .unknown) : ms.length = j := by
  have hj : (failedVerdicts ms)[j]? = some .unknown := by
    rw [List.getElem?_take] at h
    split at h
    · exact h
    · cases h
  rcases Nat.lt_trichotomy ms.length j with hlt | rfl | hgt
  · have hnone : (failedVerdicts ms)[j]? = none :=
      List.getElem?_eq_none (by simpa [failedVerdicts] using Nat.succ_le_of_lt hlt)
    simp [hnone] at hj
  · rfl
  · simp [failedVerdicts, List.getElem?_append_left, hgt] at hj

/-- No call of an enumeration that ends is given up. -/
theorem not_unknown_verdictsOf (e : Enumerator) (ms : List NamedModel) :
    .unknown ∉ e.verdictsOf ms := by
  rw [verdictsOf]
  split <;> simp

/-- **The models of a CNF formula are enumerated exactly.** With a complete backend, the calls
return what the models look like on some variables, each once, and then nothing more; every call
makes one solving call, up to the one that shows that nothing remains, which is not needed on the
empty projection behind a model. Where the backend gives up at the `j`-th solving call, counted from
0, the calls return `j` of them, then fail once, and then return nothing more. -/
theorem ofCnf_exact (hsound : B.Sound) (F : Cnf String) (vars : List String) (σ : Session γ) :
    (B.Complete → ∃ ms : List NamedModel, ms.Nodup ∧
      (∀ m, m ∈ ms ↔ ∃ A, F.eval A = true ∧ m = vars.map fun v => (v, A v)) ∧
      ∀ n, answers B n (ofCnf F vars) σ = listing n ms ∧
        verdicts B n (ofCnf F vars) σ = (if vars.isEmpty && !ms.isEmpty then [.satisfiable]
          else List.replicate ms.length .satisfiable ++ [.unsatisfiable]).take n) ∧
    ∀ k j, (verdicts B k (ofCnf F vars) σ)[j]? = some .unknown →
      ∃ ms : List NamedModel, ms.length = j ∧ ms.Nodup ∧
        (∀ m ∈ ms, ∃ A, F.eval A = true ∧ m = vars.map fun v => (v, A v)) ∧
        ∀ n, answers B n (ofCnf F vars) σ = failing n ms ∧
          verdicts B n (ofCnf F vars) σ = (failedVerdicts ms).take n := by
  obtain ⟨ms, hcourse, hnodup, hmem⟩ := exists_course (e := ofCnf F vars) hsound rfl σ
  simp only [remaining_ofCnf_iff] at hmem
  cases hcourse with
  | complete hall hlists hverdicts =>
    simp only [remaining_ofCnf_iff] at hall
    refine ⟨fun _ => ⟨ms, hnodup, fun m => ⟨hmem m, hall m⟩, fun n => ⟨hlists n, ?_⟩⟩, ?_⟩
    · rw [hverdicts, verdictsOf_ofCnf]
    · intro k j hj
      rw [hverdicts] at hj
      exact absurd (List.mem_of_mem_take (List.mem_of_getElem? hj)) (not_unknown_verdictsOf _ _)
  | failed hincomplete hfails hverdicts =>
    refine ⟨fun hcomplete => absurd hcomplete hincomplete, fun k j hj => ?_⟩
    rw [hverdicts] at hj
    have hlength : ms.length = j := length_of_unknown hj
    exact ⟨ms, hlength, hnodup, hmem, fun n => ⟨hfails n, hverdicts n⟩⟩

/-- The three models of a disjunction, of which a backend that gives up at its second call finds
one. -/
theorem ofCnf_exact_disjunction :
    Backend.exhaustive.Sound ∧ (Backend.exhaustive.givingUpFrom 1).Sound ∧
      (∃ ms : List NamedModel, ms.Nodup ∧
        ∀ n, answers .exhaustive n (ofCnf [[.pos "a", .pos "b"]] ["a", "b"]) (.start ()) =
          listing n ms) ∧
      ∃ ms : List NamedModel, ms.length = 1 ∧
        ∀ n, answers (Backend.exhaustive.givingUpFrom 1) n (ofCnf [[.pos "a", .pos "b"]] ["a", "b"])
          (.start ((), 0)) = failing n ms := by
  have hsound := Backend.exhaustive_sound
  have hsound' := hsound.givingUpFrom 1
  obtain ⟨ms, hnodup, -, hms⟩ := (ofCnf_exact hsound [[.pos "a", .pos "b"]] ["a", "b"]
    (.start ())).1 Backend.exhaustive_complete
  obtain ⟨ms', hlength, -, -, hms'⟩ := (ofCnf_exact hsound' [[.pos "a", .pos "b"]] ["a", "b"]
    (.start ((), 0))).2 2 1 (by decide +kernel)
  exact ⟨hsound, hsound', ⟨ms, hnodup, fun n => (hms n).1⟩, ms', hlength, fun n => (hms' n).1⟩

end Enumerator

end JudgmentAggregation
