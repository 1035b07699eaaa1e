import JudgmentAggregation.Outcome.Admissible
import JudgmentAggregation.Proofs.Cnf.Exactness
import JudgmentAggregation.Proofs.Optimization.Search
import JudgmentAggregation.Proofs.Scenario.Agenda
import JudgmentAggregation.Proofs.Scenario.Reachable
import JudgmentAggregation.Rule.Evaluate

/-!
# The admissible outcomes are exact

The clauses of a scenario have a model on top of a valuation exactly if the valuation respects the
scenario: it satisfies the output constraints and is faithful to the agenda
(`Scenario.admissibilityCnf_spec`). What such valuations look like on the variables of the labels
are the outcomes of the valuations of the atoms that satisfy the output constraints, since no name
of one kind is one of another (`Scenario.admissible_iff`). The enumerators of both strategies list
these outcomes, each once (`Strategy.admissible_exact`).
-/

namespace JudgmentAggregation

namespace Scenario

variable {γ : Type} {B : Backend γ} {s : Scenario} {A : Valuation String} {f : Formula}
  {fs : List Formula} {o : Outcome}

/-- An outcome is **admissible** when it gives the labels the values that their formulas have under
some valuation that satisfies the output constraints. -/
def Admissible (s : Scenario) (o : Outcome) : Prop :=
  ∃ A : Valuation String, (∀ f ∈ s.outputs, f.eval A = true) ∧ o = s.agenda.outcome A

/-- A valuation **respects** a scenario when it satisfies the output constraints and is faithful to
the agenda. -/
structure Respects (s : Scenario) (A : Valuation String) : Prop where
  outputs : ∀ f ∈ s.outputs, f.eval A = true
  faithful : s.agenda.Faithful A

/-- Clauses **represent** a scenario when their models respect it, and what respects it differs from
some model on auxiliary variables at most. -/
structure Represents (s : Scenario) (F : Cnf String) : Prop where
  respects : ∀ A, F.eval A = true → s.Respects A
  exists_model : ∀ A, s.Respects A → ∃ A', Converter.AgreeOff "_aux" A A' ∧ F.eval A' = true

/-! ### Clauses -/

/-- The clauses of some formulas mean the formulas: their models satisfy all of them, and what
satisfies all of them differs from some model on auxiliary variables at most. -/
theorem convertAll_spec {c : Converter} (hc : c.Orderly) (hnormal : ∀ f ∈ fs, f.isNormal = true)
    (hplain : ∀ f ∈ fs, Converter.Plain c.stem f) (vs : List String) :
    ∃ F c', convertAll c vs fs = .ok F ∧ c.Extends c' ∧ c'.Orderly ∧
      ∀ c'', c'.Extends c'' → c''.Orderly → ∀ A,
        ((∀ f ∈ fs, f.eval A = true) → F.eval (c''.extend A) = true) ∧
          (F.eval A = true → ∀ f ∈ fs, f.eval A = true) := by
  induction fs generalizing c vs with
  | nil => exact ⟨[], c, rfl, .refl c, hc, fun _ _ _ A => ⟨fun _ => rfl, fun _ => by simp⟩⟩
  | cons f fs ih =>
    obtain ⟨F, ws, c₁, hF, hext₁, ho₁, hexact, -⟩ :=
      Converter.convert_spec hc (hplain f List.mem_cons_self) (hnormal f List.mem_cons_self) vs
    -- The converters to come extend this one, so its clauses keep their meaning.
    obtain ⟨G, c₂, hG, hext₂, ho₂, hmeans⟩ := ih ho₁
      (fun g hg => hnormal g (List.mem_cons_of_mem _ hg))
      (fun g hg => hext₁.stem_eq ▸ hplain g (List.mem_cons_of_mem _ hg)) ws
    refine ⟨F ++ G, c₂, ?_, hext₁.trans hext₂, ho₂, ?_⟩
    · simp only [convertAll, hF, hG]
    · intro c'' hext ho A
      obtain ⟨heval, hmodel⟩ := hexact c'' (hext₂.trans hext) ho A
      obtain ⟨hcomplete, hsound⟩ := hmeans c'' hext ho A
      rw [Cnf.eval_append, Cnf.eval_append, Bool.and_eq_true, Bool.and_eq_true]
      constructor
      · intro h
        obtain ⟨hf, hfs⟩ := List.forall_mem_cons.1 h
        exact ⟨heval.trans hf, hcomplete hfs⟩
      · rintro ⟨hFA, hGA⟩
        exact List.forall_mem_cons.2 ⟨(hmodel A (fun _ _ => rfl) hFA).1, hsound hGA⟩

theorem NormalOver.plain (hf : NormalOver s.declared f) (hs : s.WellFormed) :
    Converter.Plain "_aux" f := by
  intro v hv
  have hstem : "_aux" = "_" ++ "aux" := rfl
  rw [hstem]
  exact Converter.not_auxiliary (hs.declared v (hf.vars v hv)).head?_ne

/-- Formulas over the declared variables of a well-formed scenario are readable. -/
theorem WellFormed.readable (hs : s.WellFormed) (hf : NormalOver s.declared f) : f.Readable :=
  fun v hv => hs.declared v (hf.vars v hv)

/-- The definitions of the labels are normal, and their variables are not auxiliary. -/
theorem WellFormed.definitions (hs : s.WellFormed) (hf : f ∈ s.agenda.definitions) :
    f.isNormal = true ∧ Converter.Plain "_aux" f := by
  obtain ⟨⟨l, g⟩, hg, hf⟩ := List.mem_flatMap.1 hf
  have hg := hs.agenda g (List.of_mem_zip hg).2
  have hvar := Label.not_auxiliary_variableName l
  rcases List.mem_pair.1 hf with rfl | rfl
  · refine ⟨by simp [Formula.isNormal_not, hg.isNormal], ?_⟩
    intro v hv
    simp only [Formula.mem_vars_or, List.mem_pair, exists_eq_or_imp, exists_eq_left,
      Formula.mem_vars_not, Formula.mem_vars_atom] at hv
    rcases hv with rfl | hv
    · exact hvar
    · exact hg.plain hs v hv
  · refine ⟨by simp [Formula.negateNormal, Formula.isNormal_normal], ?_⟩
    intro v hv
    simp only [Formula.mem_vars_or, List.mem_pair, exists_eq_or_imp, exists_eq_left,
      Formula.negateNormal, Formula.mem_vars_normal, Formula.mem_vars_atom] at hv
    rcases hv with hv | rfl
    · exact hg.plain hs v hv
    · exact hvar

/-- The clauses of a scenario represent it. -/
theorem admissibilityCnf_spec (hs : s.WellFormed) :
    ∃ F, s.admissibilityCnf = .ok F ∧ s.Represents F := by
  have hformula : ∀ f ∈ s.outputs ++ s.agenda.definitions,
      f.isNormal = true ∧ Converter.Plain "_aux" f := by
    intro f hf
    rcases List.mem_append.1 hf with hf | hf
    · exact ⟨(hs.outputs f hf).isNormal, (hs.outputs f hf).plain hs⟩
    · exact hs.definitions hf
  obtain ⟨F, c, hF, hext, ho, hmeans⟩ := convertAll_spec (Converter.orderly_ofNamespace "aux")
    (fun f hf => (hformula f hf).1) (fun f hf => (hformula f hf).2) s.allVariables
  have hrespects (A) : (∀ f ∈ s.outputs ++ s.agenda.definitions, f.eval A = true) ↔
      s.Respects A := by
    rw [List.forall_mem_append, Agenda.eval_definitions]
    exact ⟨fun h => ⟨h.1, h.2⟩, fun h => ⟨h.outputs, h.faithful⟩⟩
  refine ⟨F, hF, ⟨fun A hA => ?_, fun A hA => ⟨c.extend A, ?_, ?_⟩⟩⟩
  · exact (hrespects A).1 ((hmeans c (.refl c) ho A).2 hA)
  · have hstem : c.stem = "_aux" := hext.stem_eq
    exact hstem ▸ Converter.agreeOff_extend ho A
  · exact (hmeans c (.refl c) ho A).1 ((hrespects A).2 hA)

/-! ### Outcomes -/

/-- The admissible outcomes are what the valuations that respect the scenario say of the labels. -/
theorem admissible_iff (hs : s.WellFormed) :
    s.Admissible o ↔ ∃ A, s.Respects A ∧ o = s.agenda.reading A := by
  constructor
  · rintro ⟨A, hA, rfl⟩
    -- Giving the labels their values does not change the atoms, which are words.
    have hfaithful := Agenda.faithful_complete (A := A)
      fun f hf => hs.readable (hs.agenda f hf)
    refine ⟨s.agenda.complete A, ⟨?_, hfaithful⟩, ?_⟩
    · intro f hf
      rw [Agenda.eval_complete (hs.readable (hs.outputs f hf)), hA f hf]
    · rw [hfaithful.reading_eq, Agenda.outcome_eq_iff, Agenda.values_outcome, Agenda.values_outcome,
        List.map_inj_left]
      intro p hp
      rw [Agenda.eval_complete (hs.readable (hs.agenda p.2 (List.of_mem_zip hp).2))]
  · rintro ⟨A, hA, rfl⟩
    exact ⟨A, hA.outputs, hA.faithful.reading_eq⟩

/-- The admissible outcomes are what the models of the clauses say of the labels. -/
theorem Represents.admissible_iff {F : Cnf String} (hF : s.Represents F) (hs : s.WellFormed) :
    s.Admissible o ↔ ∃ A, F.eval A = true ∧ o = s.agenda.reading A := by
  rw [Scenario.admissible_iff hs]
  constructor
  · rintro ⟨A, hA, rfl⟩
    obtain ⟨A', hagree, hA'⟩ := hF.exists_model A hA
    refine ⟨A', hA', Agenda.outcomeOf_eq_iff.2 fun l _ => ?_⟩
    exact (hagree _ (Label.not_auxiliary_variableName l)).symm
  · rintro ⟨A, hA, rfl⟩
    exact ⟨A, hF.respects A hA, rfl⟩

end Scenario

namespace Outcome

variable {γ : Type} {B : Backend γ} {e : Enumerator} {a : Agenda} {Q : Valuation String → Prop}

theorem listAll_tells {P : Event → Prop} (hP : ∀ c, P (.solved c)) (B : Backend γ)
    (e : Enumerator) : (listAll B e).Tells P :=
  (Enumerator.toList_tells hP B e).bind fun _ => Run.tells_pure _

/-- An enumerator of what some valuations look like on the variables of the labels lists what they
say of the labels, each outcome once. -/
theorem exists_lists (hsound : B.Sound) (hcomplete : B.Complete) (ha : a.size < Count.limit)
    (he : ∀ v, e.Remaining v ↔ ∃ A, Q A ∧ v = a.labelNames.map fun name => (name, A name))
    (σ : Session γ) :
    ∃ ms, e.Lists B σ ms ∧ (∃ σ', (listAll B e).Ends σ (.ok (ms.map ofModel)) σ') ∧
      (ms.map ofModel).Nodup ∧ ∀ o, o ∈ ms.map ofModel ↔ ∃ A, Q A ∧ o = a.reading A := by
  obtain ⟨ms, hlists, hnodup, hmem⟩ := e.exists_lists hsound hcomplete σ
  obtain ⟨σ', hends⟩ := hlists.toList hnodup fun m hm => (hmem m).1 hm
  have hmem' (m) := (hmem m).trans (he m)
  refine ⟨ms, hlists, ⟨σ', hends.bind (Run.ends_pure _ _)⟩, ?_, ?_⟩
  · -- Models with the same outcome say the same of the labels, so they are the same.
    refine List.pairwise_map.2 (hnodup.imp_of_mem ?_)
    rintro m m' hm hm' hne heq
    obtain ⟨A, -, rfl⟩ := (hmem' m).1 hm
    obtain ⟨A', -, rfl⟩ := (hmem' m').1 hm'
    rw [Agenda.ofModel_eq_reading ha, Agenda.ofModel_eq_reading ha] at heq
    exact hne (Agenda.reading_eq_iff.1 heq)
  · intro o
    rw [List.mem_map]
    constructor
    · rintro ⟨m, hm, rfl⟩
      obtain ⟨A, hA, rfl⟩ := (hmem' m).1 hm
      exact ⟨A, hA, Agenda.ofModel_eq_reading ha A⟩
    · rintro ⟨A, hA, rfl⟩
      exact ⟨_, (hmem' _).2 ⟨A, hA, rfl⟩, Agenda.ofModel_eq_reading ha A⟩

end Outcome

namespace Strategy

variable {γ : Type} {B : Backend γ} {s : Scenario}

/-- Without bounds to encode it does not matter which encoder there is. -/
theorem optimalModels_eq {p : OptimizationProblem} (hconstraints : p.constraints = [])
    (hobjectives : p.objectives = []) (E E' : BoundEncoder) :
    p.optimalModels B E = p.optimalModels B E' := by
  simp only [OptimizationProblem.optimalModels, hconstraints, hobjectives,
    OptimizationProblem.addConstraints, OptimizationProblem.listMinimal,
    OptimizationProblem.minimize]

/-- Without bounds to encode there are no numbers to tell of. -/
theorem optimalModels_fits {p : OptimizationProblem} (hconstraints : p.constraints = [])
    (hobjectives : p.objectives = []) (E : BoundEncoder) (σ : Session γ) :
    (p.optimalModels B E).Fits σ := by
  refine Run.Tells.fits ?_ σ
  rw [OptimizationProblem.optimalModels, hconstraints, hobjectives]
  refine (Run.tells_pure _).bind fun s => (Solver.tells_solve (fun _ => trivial) _ _).bind
    fun solved => ((Run.tells_ofResult _).inContext _).bind fun found => ?_
  rcases found with _ | m
  · exact (Run.tells_record trivial).bind fun _ => Run.tells_pure _
  · exact (Run.tells_pure _).bind fun _ => Run.tells_pure _

/-- **The admissible outcomes are exact.** For a reachable scenario whose labels are counts, with a
sound and complete backend, whichever models it finds, both strategies give an enumerator, and this
lists each admissible outcome exactly once and nothing else. -/
theorem admissible_exact (hs : s.Reachable) (hsize : s.agenda.size < Count.limit)
    (hsound : B.Sound) (hcomplete : B.Complete) (strategy : Strategy) (E : BoundEncoder)
    (σ : Session γ) :
    ∃ e σ' ms, (strategy.admissible B E s).Ends σ (.ok e) σ' ∧ e.Lists B σ' ms ∧
      (ms.map Outcome.ofModel).Nodup ∧ ∀ o, o ∈ ms.map Outcome.ofModel ↔ s.Admissible o := by
  obtain ⟨F, hF, hrepresents⟩ := s.admissibilityCnf_spec hs.wellFormed
  have hread (o) : (∃ A, F.eval A = true ∧ o = s.agenda.reading A) ↔ s.Admissible o :=
    (hrepresents.admissible_iff hs.wellFormed).symm
  cases strategy with
  | bruteForce =>
    obtain ⟨ms, hlists, -, hnodup, hmem⟩ := Outcome.exists_lists hsound hcomplete hsize
      (Enumerator.remaining_ofCnf_iff F s.agenda.labelNames) σ
    refine ⟨_, σ, ms, Run.ends_ok ?_ σ, hlists, hnodup, fun o => (hmem o).trans (hread o)⟩
    rw [Scenario.admissible, hF]
    rfl
  | optimization =>
    let p : OptimizationProblem := ⟨F, [], s.agenda.labelNames, []⟩
    obtain ⟨e, σ', hends, hremaining, -⟩ := p.optimalModels_spec hsound hcomplete
      BoundEncoder.thresholds_correct ⟨by simp [p], by simp [p]⟩ (optimalModels_fits rfl rfl _ σ)
    have hoptimal (A) : p.Optimal A ↔ F.eval A = true := by
      simp [OptimizationProblem.Optimal, OptimizationProblem.feasible,
        OptimizationProblem.values, p]
    have hremaining' (v) : e.Remaining v ↔ ∃ A, F.eval A = true ∧
        v = s.agenda.labelNames.map fun name => (name, A name) :=
      (hremaining v).trans (exists_congr fun A => and_congr_left fun _ => hoptimal A)
    obtain ⟨ms, hlists, -, hnodup, hmem⟩ := Outcome.exists_lists hsound hcomplete hsize
      hremaining' σ'
    refine ⟨e, σ', ms, ?_, hlists, hnodup, fun o => (hmem o).trans (hread o)⟩
    have hp : s.admissibilityProblem = .ok p := by
      rw [Scenario.admissibilityProblem, hF]
      rfl
    rw [optimalModels_eq rfl rfl _ E] at hends
    exact (Run.ends_ok hp σ).bind hends

/-- A scenario in which an output constraint and a formula of the agenda share an auxiliary
variable, and one of the four outcomes is not admissible. -/
theorem admissible_exact_shared :
    let both : Formula := .and [.atom "a", .atom "b"]
    let s : Scenario := ⟨["a", "b", "c"], ⟨[.atom "a", .or [both, .atom "c"]]⟩, [],
      [.or [.not (.atom "c"), both]], []⟩
    s.Reachable ∧ s.agenda.size < Count.limit ∧
    ∃ e σ' ms, (optimization.admissible .exhaustive .thresholds s).Ends (.start ()) (.ok e) σ' ∧
      e.Lists .exhaustive σ' ms ∧ (ms.map Outcome.ofModel).Nodup ∧
      Outcome.ofPairs [(1, true), (2, true)] ∈ ms.map Outcome.ofModel ∧
      Outcome.ofPairs [(1, false), (2, true)] ∉ ms.map Outcome.ofModel := by
  intro both s
  have hs : s.Reachable := Scenario.Reachable.empty.build
    [.variable "b", .variable "a", .variable "c", .agenda (.atom "a"),
      .output (.implies (.atom "c") both), .agenda (.or [both, .atom "c"])]
    (by decide +kernel)
  have hsize : s.agenda.size < Count.limit := by decide
  obtain ⟨e, σ', ms, hends, hlists, hnodup, hmem⟩ := admissible_exact hs hsize
    Backend.exhaustive_sound Backend.exhaustive_complete optimization .thresholds (.start ())
  refine ⟨hs, hsize, e, σ', ms, hends, hlists, hnodup, (hmem _).2 ?_, fun h => ?_⟩
  · exact ⟨fun _ => true, by decide, by decide⟩
  · obtain ⟨A, hA, ho⟩ := (hmem _).1 h
    have houtput := hA _ List.mem_cons_self
    have hvalues : [(1, false), (2, true)] =
        [(1, A "a"), (2, Formula.eval A (.or [both, .atom "c"]))] := congrArg Outcome.values ho
    cases ha : A "a" <;> cases hc : A "c" <;> simp [both, ha, hc] at houtput hvalues

end Strategy

end JudgmentAggregation
