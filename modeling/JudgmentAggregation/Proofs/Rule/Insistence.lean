import JudgmentAggregation.Proofs.Rule.Evaluate
import JudgmentAggregation.Proofs.Sat.Insistence
import JudgmentAggregation.Proofs.Sat.Oracle
import JudgmentAggregation.Proofs.Scenario.Invariant

/-!
# No wrong answers

A backend may give up at any solving call. The satisfiability check, the search for optimal models,
both strategies and every change shadow what they are with the backend that insists
(`Oracle.satisfiable_shadows`, `OptimizationProblem.optimalModels_shadows`,
`Strategy.evaluate_shadows`, `Scenario.change_shadows`), and with that one the result is certain: it
is the same with every other sound and complete backend. So a computation that does not fail gives
the right result, and it fails exactly if one of its own solving calls is given up
(`Run.RightOrFailed`). The result of a strategy can also be a fault, where it has no room for the
rule; this is certain, too.
-/

namespace JudgmentAggregation

variable {γ α : Type} {B : Backend γ} {E : BoundEncoder} {L : Lister}

/-! ### Optimization -/

namespace OptimizationProblem

theorem addConstraints_shadows (E : BoundEncoder) (cs : List LowerBound) (s : Store) :
    (addConstraints E cs s : Run γ Store).Shadows (addConstraints E cs s) :=
  Run.shadows_self (addConstraints_tells (fun _ => rfl) E cs s)

theorem boundSums_shadows (E : BoundEncoder) (bound : Nat) (guard : Option (Literal Nat))
    (us : List (List (Term Nat))) (s : Store) :
    (boundSums E bound guard us s : Run γ Store).Shadows (boundSums E bound guard us s) :=
  Run.shadows_self (boundSums_tells (fun _ => rfl) E bound guard us s)

theorem findBetter_shadows (E : BoundEncoder) (i : Nat) (sums : List (List (Term Nat)))
    (best : Nat) (s : Store) :
    (findBetter B E i sums best s).Shadows (findBetter B.insisting E i sums best s) :=
  (boundSums_shadows E _ _ sums _).bind fun s' =>
    s'.solver.solve_shadows _ (.optimizingObjective i) fun _ _ => Run.shadows_pure _

/-- The search for better values is shadowed, step by step. -/
theorem improve_shadows (E : BoundEncoder) (i : Nat) (sums : List (List (Term Nat)))
    (fuel best : Nat) (m : Model) (s : Store) :
    (improve B E i sums fuel best m s).Shadows (improve B.insisting E i sums fuel best m s) := by
  induction fuel generalizing best m s with
  | zero => exact Run.shadows_pure _
  | succ fuel ih =>
    rw [improve, improve]
    by_cases hbest : best = 0
    · rw [if_pos hbest, if_pos hbest]
      exact Run.shadows_pure _
    · rw [if_neg hbest, if_neg hbest]
      refine (findBetter_shadows E i sums best s).bind fun found => ?_
      rcases found with ⟨_ | m', s'⟩
      · exact Run.shadows_pure _
      · exact (Run.shadows_ofResult _).bind fun best' =>
          (Run.shadows_record).bind fun _ => ih best' m' s'

theorem minimize_shadows (E : BoundEncoder) (i : Nat) (os : List Objective) (m : Model)
    (s : Store) : (minimize B E i os m s).Shadows (minimize B.insisting E i os m s) := by
  induction os generalizing i m s with
  | nil => exact Run.shadows_pure _
  | cons o os ih =>
    exact (Run.shadows_ofResult _).bind fun first => (Run.shadows_record).bind fun _ =>
      (improve_shadows E i _ first first m _).bind fun found =>
        (Run.shadows_record).bind fun _ => (boundSums_shadows E _ _ _ _).bind fun s' =>
          ih (i + 1) found.2.1 s'

theorem listMinimal_shadows (E : BoundEncoder) (projection : List (String × Nat))
    (os : List Objective) (s : Store) :
    (listMinimal B E projection os s).Shadows (listMinimal B.insisting E projection os s) := by
  refine s.solver.solve_shadows [] .findingFirstModel fun solved found => ?_
  rcases found with _ | m
  · exact (Run.shadows_record).bind fun _ => Run.shadows_pure _
  · exact (minimize_shadows E 0 os m _).bind fun _ => Run.shadows_pure _

/-- The models that are found to be optimal, one after the other. -/
def optimalList (B : Backend γ) (E : BoundEncoder) (p : OptimizationProblem) :
    Run γ (List NamedModel) := do
  (← p.optimalModels B E).toList B

theorem optimalModels_shadows (E : BoundEncoder) (p : OptimizationProblem) :
    (p.optimalModels B E).Shadows (p.optimalModels B.insisting E) :=
  (addConstraints_shadows E p.constraints _).bind fun s =>
    listMinimal_shadows E _ p.objectives s

theorem optimalList_shadows (E : BoundEncoder) (p : OptimizationProblem) :
    (p.optimalList B E).Shadows (p.optimalList B.insisting E) :=
  (p.optimalModels_shadows E).bind fun e => e.toList_shadows

/-- The optimal models are listed, each once. -/
theorem optimalList_ends {p : OptimizationProblem} (hsound : B.Sound) (hcomplete : B.Complete)
    (hE : E.Correct) (hp : p.Moderate) {σ : Session γ} (hfit : (p.optimalList B E).Fits σ) :
    ∃ ms σ', (p.optimalList B E).Ends σ (.ok ms) σ' ∧ ms.Nodup ∧
      ∀ v, v ∈ ms ↔ ∃ A, p.Optimal A ∧ v = p.projection.map fun name => (name, A name) := by
  obtain ⟨e, σ₁, hends, hremaining, -⟩ := p.optimalModels_spec hsound hcomplete hE hp
    (hfit.left fun e => Enumerator.toList_tells (fun _ => trivial) B e)
  obtain ⟨ms, hlists, hnodup, hmem⟩ := e.exists_lists hsound hcomplete σ₁
  obtain ⟨σ', hlist⟩ := hlists.toList hnodup fun m hm => (hmem m).1 hm
  exact ⟨ms, σ', hends.bind hlist, hnodup, fun v => (hmem v).trans (hremaining v)⟩

end OptimizationProblem

/-! ### Strategies -/

theorem Outcome.listAll_shadows (e : Enumerator) :
    (listAll B e).Shadows (listAll B.insisting e) :=
  e.toList_shadows.bind fun _ => Run.shadows_pure _

namespace Strategy

/-- The evaluation of a rule is shadowed with both strategies. -/
theorem evaluate_shadows (E : BoundEncoder) (L : Lister) (strategy : Strategy) (r : Rule)
    (s : Scenario) :
    (strategy.evaluate B E L r s).Shadows (strategy.evaluate B.insisting E L r s) := by
  cases strategy with
  | bruteForce =>
    exact (Run.shadows_record).bind fun _ => (Run.shadows_ofResult _).bind fun e =>
      ((Outcome.listAll_shadows e).inContext _).bind fun _ => (Run.shadows_record).bind
        fun _ => (Run.shadows_ofResult _).bind fun _ => (Run.shadows_record).bind
          fun _ => Run.shadows_pure _
  | optimization =>
    exact (Run.shadows_record).bind fun _ => ((Run.shadows_ofResult _).inContext _).bind
      fun p => (Run.shadows_record).bind fun _ => (p.optimalModels_shadows E).bind
        fun e => ((Outcome.listAll_shadows e).inContext _).bind fun _ =>
          (Run.shadows_record).bind fun _ => Run.shadows_pure _

/-- What a strategy gives does not depend on the backend, the encoder and the lister. It is a list
of outcomes if there is room for the rule, and a fault otherwise. -/
theorem evaluate_certain {s : Scenario} (hs : s.WellFormed)
    (hsize : s.agenda.size ≤ Count.capacity 24) (hmoderate : s.Moderate) (strategy : Strategy)
    (r : Rule) :
    ∃ result : Result (List Outcome), ¬ result.Failed ∧
      (s.Tractable strategy r → ∃ os, result = .ok os) ∧
      ∀ {γ : Type} {B : Backend γ} {E : BoundEncoder} {L : Lister},
        B.Sound → B.Complete → E.Correct → L.Correct → ∀ σ,
          (strategy.evaluate B E L r s).Fits σ →
            ∃ σ', (strategy.evaluate B E L r s).Ends σ result σ' := by
  have hlt := Scenario.size_lt_of_capacity hsize
  by_cases hr : s.Tractable strategy r
  · obtain ⟨os, hsorted, hos⟩ := exists_selected hs (Scenario.size_lt_limit hsize) r
    exact ⟨.ok os, nofun, fun _ => ⟨os, rfl⟩, fun hsound hcomplete hE hL σ hfit =>
      evaluate_spec hs hsound hcomplete hlt hmoderate hE hL hr hfit hsorted hos⟩
  · exact ⟨.error .fault, nofun, fun h => absurd h hr, fun hsound hcomplete _ hL σ _ =>
      evaluate_eq_fault hs hsound hcomplete hlt hmoderate _ hL hr σ⟩

end Strategy

/-! ### Changes -/

namespace Scenario

variable {s : Scenario}

theorem checkSatisfiable_shadows (s : Scenario) (fs : List Formula) (v : Violation) :
    (s.checkSatisfiable B fs v).Shadows (s.checkSatisfiable B.insisting fs v) := by
  refine ((Oracle.satisfiable_shadows fs s.allVariables).inContext _).bind fun b => ?_
  rcases b with _ | _
  · exact Run.shadows_throw _
  · exact Run.shadows_pure _

theorem checkJudgmentSetsFrom_shadows (s : Scenario) (i : Nat) (js : List JudgmentSet) :
    (s.checkJudgmentSetsFrom B i js).Shadows (s.checkJudgmentSetsFrom B.insisting i js) := by
  induction js generalizing i with
  | nil => exact Run.shadows_pure _
  | cons j js ih => exact (s.checkSatisfiable_shadows _ _).bind fun _ => ih (i + 1)

theorem change_shadows (c : Change) (s : Scenario) :
    (s.change B c).Shadows (s.change B.insisting c) := by
  cases c with
  | «variable» name => exact Run.shadows_ofResult _
  | agenda f =>
    refine (Run.shadows_ofResult _).bind fun _ => ?_
    by_cases hlabel : (s.agenda.labelOf? f.toNormal).isSome = true
    · rw [if_pos hlabel, if_pos hlabel]
      exact Run.shadows_throw_bind _
    · rw [if_neg hlabel, if_neg hlabel]
      exact (checkSatisfiable_shadows _ _ _).bind fun _ => (checkSatisfiable_shadows _ _ _).bind
        fun _ => (checkJudgmentSetsFrom_shadows _ _ _).bind fun _ =>
          (Run.shadows_record).bind fun _ => Run.shadows_pure _
  | input f =>
    exact (Run.shadows_ofResult _).bind fun _ => (checkSatisfiable_shadows _ _ _).bind fun _ =>
      (checkJudgmentSetsFrom_shadows _ _ _).bind fun _ => (Run.shadows_record).bind
        fun _ => Run.shadows_pure _
  | output f =>
    exact (Run.shadows_ofResult _).bind fun _ => (checkSatisfiable_shadows _ _ _).bind fun _ =>
      (Run.shadows_record).bind fun _ => Run.shadows_pure _
  | judgment n fs =>
    rw [change, change, addJudgmentSet, addJudgmentSet]
    by_cases hn : n = 0
    · rw [if_pos hn, if_pos hn]
      exact Run.shadows_throw _
    · rw [if_neg hn, if_neg hn]
      rcases s.accept (fs.map Formula.toNormal) ⟨n, [], []⟩ with f | j
      · exact Run.shadows_throw _
      · exact (s.checkSatisfiable_shadows _ _).bind fun _ => (Run.shadows_record).bind
          fun _ => Run.shadows_pure _

/-- An attempt at a change in which a solving call is given up fails and changes nothing. -/
theorem attempt_givenUp (c : Change) (s : Scenario) (σ : Session γ) :
    ∃ r s' σ' cs, (s.attempt B c).run σ = ((r, s'), σ') ∧ σ.Makes σ' cs ∧
      (GivenUp cs → r.Unanswered ∧ s' = s) := by
  cases s.change_shadows c σ with
  | failed hx hcalls _ =>
    exact ⟨_, _, _, _, run_attempt_error hx, hcalls, fun _ => ⟨⟨_, rfl⟩, rfl⟩⟩
  | @same r σ' cs hx _ hcalls hcs =>
    rcases r with e | s'
    · exact ⟨_, _, σ', cs, run_attempt_error hx, hcalls, fun h => absurd h hcs⟩
    · exact ⟨_, _, σ', cs, run_attempt_ok hx, hcalls, fun h => absurd h hcs⟩

end Scenario

end JudgmentAggregation
