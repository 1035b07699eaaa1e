import JudgmentAggregation.Proofs.Scenario.Check

/-!
# How changes end

With a sound and complete backend, a change is made if the formulas have what it takes
(`addToAgenda_ends`, …), and otherwise the error names what is missing (`addToAgenda_fails`, …). So
a scenario is reachable if its formulas can be added one after the other (`Reachable.extendAgenda`,
…).
-/

namespace JudgmentAggregation

namespace Scenario

variable {γ : Type} {B : Backend γ} {s : Scenario} {f : Formula} {fs : List Formula}
  {A : Valuation String} {j : JudgmentSet} {js js' : List JudgmentSet}

/-- A formula over the declared variables passes the check of its variables. -/
theorem checkVariables_eq_ok (hf : ∀ v ∈ f.vars, v ∈ s.declared) : s.checkVariables f = .ok () := by
  have hnone : (f.vars.find? fun v => !s.declared.contains v) = none := by
    simpa [List.find?_eq_none] using hf
  rw [checkVariables, hnone]

section Formulas

variable (hs : s.WellFormed) (hf : ∀ v ∈ f.toNormal.vars, v ∈ s.declared)

include hs hf

theorem WellFormed.push : WellFormed { s with agenda := s.agenda.push f.toNormal } :=
  ⟨hs.declared, forall_mem_concat hs.agenda ⟨Formula.isNormal_normal true f, hf⟩, hs.inputs,
    hs.outputs⟩

theorem WellFormed.addInput : WellFormed { s with inputs := s.inputs ++ [f.toNormal] } :=
  ⟨hs.declared, hs.agenda, forall_mem_concat hs.inputs ⟨Formula.isNormal_normal true f, hf⟩,
    hs.outputs⟩

theorem WellFormed.addOutput : WellFormed { s with outputs := s.outputs ++ [f.toNormal] } :=
  ⟨hs.declared, hs.agenda, hs.inputs,
    forall_mem_concat hs.outputs ⟨Formula.isNormal_normal true f, hf⟩⟩

variable (hsound : B.Sound) (hcomplete : B.Complete)

include hsound hcomplete

/-! ### Formulas of the agenda -/

section Agenda

variable (hnew : f.toNormal ∉ s.agenda.formulas) (hinputs : Formula.Satisfiable s.inputs)
  (houtputs : Formula.Satisfiable s.outputs)

include hnew hinputs houtputs

/-- The constraints stay satisfiable, so it depends on the judgment sets how the addition ends. -/
theorem addToAgenda_of_checkJudgmentSets (σ : Session γ) :
    ∃ σ₁, ∀ r σ', Run.Ends (do
      checkJudgmentSets B { s with agenda := s.agenda.push f.toNormal }
      Run.record (.agendaExtended f.toNormal (s.agenda.push f.toNormal).size)
      return { s with agenda := s.agenda.push f.toNormal }) σ₁ r σ' →
        (s.addToAgenda B f).Ends σ r σ' := by
  have hs' := hs.push hf
  obtain ⟨σ₁, hcheck₁⟩ := checkConstraints_ends hsound hcomplete hs' hs'.inputs hinputs
    (.inputConstraints f.toNormal) σ
  obtain ⟨σ₂, hcheck₂⟩ := checkConstraints_ends hsound hcomplete hs' hs'.outputs houtputs
    (.outputConstraints f.toNormal) σ₁
  refine ⟨σ₂, fun r σ' hends => (Run.ends_ok (checkVariables_eq_ok hf) σ).bind ?_⟩
  rw [Agenda.labelOf?_eq_none.2 hnew]
  exact hcheck₁.bind (hcheck₂.bind hends)

/-- A formula is added to the agenda if it is new and uses declared variables, and if there are
valuations for the constraints of both kinds and for every judgment set. -/
theorem addToAgenda_ends
    (hprofile : ∀ j ∈ s.profile, Consistent { s with agenda := s.agenda.push f.toNormal } j)
    (σ : Session γ) :
    ∃ σ', (s.addToAgenda B f).Ends σ (.ok { s with agenda := s.agenda.push f.toNormal }) σ' := by
  obtain ⟨σ₁, hends⟩ := addToAgenda_of_checkJudgmentSets hs hf hsound hcomplete hnew hinputs
    houtputs σ
  obtain ⟨σ₂, hcheck⟩ := checkJudgmentSetsFrom_ends hsound hcomplete (hs.push hf) hprofile 0 σ₁
  exact ⟨_, hends _ _ (hcheck.bind ((Run.ends_record _ σ₂).bind (Run.ends_pure _ _)))⟩

/-- With the new formula, a judgment set is not consistent any more. -/
theorem addToAgenda_fails (hprofile : s.profile = js ++ j :: js')
    (hjs : ∀ k ∈ js, Consistent { s with agenda := s.agenda.push f.toNormal } k)
    (hj : ¬ Consistent { s with agenda := s.agenda.push f.toNormal } j) (σ : Session γ) :
    ∃ σ', (s.addToAgenda B f).Ends σ
      (.error (violation (.judgmentSet js.length j.accepted))) σ' := by
  obtain ⟨σ₁, hends⟩ := addToAgenda_of_checkJudgmentSets hs hf hsound hcomplete hnew hinputs
    houtputs σ
  obtain ⟨σ₂, hcheck⟩ := checkJudgmentSetsFrom_fails hsound hcomplete (hs.push hf) hjs hj js' 0 σ₁
  rw [← hprofile, Nat.zero_add] at hcheck
  exact ⟨σ₂, hends _ _ hcheck.bind_error⟩

end Agenda

omit hs hsound hcomplete in
/-- A formula is not added to the agenda twice. -/
theorem addToAgenda_duplicate (hmem : f.toNormal ∈ s.agenda.formulas) (σ : Session γ) :
    (s.addToAgenda B f).Ends σ (.error (violation (.duplicateAgendaFormula f.toNormal))) σ := by
  obtain ⟨l, hl⟩ := Option.ne_none_iff_exists'.1 (Agenda.labelOf?_eq_none.not_left.2 hmem)
  refine (Run.ends_ok (checkVariables_eq_ok hf) σ).bind ?_
  rw [hl]
  exact (Run.ends_throw _ σ).bind_error

/-! ### Constraints -/

/-- An input constraint is added if it uses declared variables and is satisfiable together with the
others, and if the judgment sets stay consistent. -/
theorem addInput_ends (hinputs : Formula.Satisfiable (s.inputs ++ [f.toNormal]))
    (hprofile : ∀ j ∈ s.profile, Consistent { s with inputs := s.inputs ++ [f.toNormal] } j)
    (σ : Session γ) : ∃ σ', (s.addInput B f).Ends σ
      (.ok { s with inputs := s.inputs ++ [f.toNormal] }) σ' := by
  have hs' := hs.addInput hf
  obtain ⟨σ₁, hcheck₁⟩ := checkConstraints_ends hsound hcomplete hs' hs'.inputs hinputs
    (.inputConstraints f.toNormal) σ
  obtain ⟨σ₂, hcheck₂⟩ := checkJudgmentSetsFrom_ends hsound hcomplete hs' hprofile 0 σ₁
  exact ⟨_, (Run.ends_ok (checkVariables_eq_ok hf) σ).bind
    (hcheck₁.bind (hcheck₂.bind ((Run.ends_record _ σ₂).bind (Run.ends_pure _ _))))⟩

/-- An input constraint that contradicts the others is refused. -/
theorem addInput_unsatisfiable (hinputs : ¬ Formula.Satisfiable (s.inputs ++ [f.toNormal]))
    (σ : Session γ) : ∃ σ', (s.addInput B f).Ends σ
      (.error (violation (.inputConstraints f.toNormal))) σ' := by
  have hs' := hs.addInput hf
  obtain ⟨σ₁, hcheck⟩ := checkConstraints_fails hsound hcomplete hs' hs'.inputs hinputs
    (.inputConstraints f.toNormal) σ
  exact ⟨σ₁, (Run.ends_ok (checkVariables_eq_ok hf) σ).bind hcheck.bind_error⟩

/-- With the new input constraint, a judgment set is not consistent any more. -/
theorem addInput_fails (hinputs : Formula.Satisfiable (s.inputs ++ [f.toNormal]))
    (hprofile : s.profile = js ++ j :: js')
    (hjs : ∀ k ∈ js, Consistent { s with inputs := s.inputs ++ [f.toNormal] } k)
    (hj : ¬ Consistent { s with inputs := s.inputs ++ [f.toNormal] } j) (σ : Session γ) :
    ∃ σ', (s.addInput B f).Ends σ
      (.error (violation (.judgmentSet js.length j.accepted))) σ' := by
  have hs' := hs.addInput hf
  obtain ⟨σ₁, hcheck₁⟩ := checkConstraints_ends hsound hcomplete hs' hs'.inputs hinputs
    (.inputConstraints f.toNormal) σ
  obtain ⟨σ₂, hcheck₂⟩ := checkJudgmentSetsFrom_fails hsound hcomplete hs' hjs hj js' 0 σ₁
  rw [← hprofile, Nat.zero_add] at hcheck₂
  exact ⟨σ₂, (Run.ends_ok (checkVariables_eq_ok hf) σ).bind (hcheck₁.bind hcheck₂.bind_error)⟩

/-- An output constraint is added if it uses declared variables and is satisfiable together with the
others. -/
theorem addOutput_ends (houtputs : Formula.Satisfiable (s.outputs ++ [f.toNormal]))
    (σ : Session γ) : ∃ σ', (s.addOutput B f).Ends σ
      (.ok { s with outputs := s.outputs ++ [f.toNormal] }) σ' := by
  have hs' := hs.addOutput hf
  obtain ⟨σ₁, hcheck⟩ := checkConstraints_ends hsound hcomplete hs' hs'.outputs houtputs
    (.outputConstraints f.toNormal) σ
  exact ⟨_, (Run.ends_ok (checkVariables_eq_ok hf) σ).bind
    (hcheck.bind ((Run.ends_record _ σ₁).bind (Run.ends_pure _ _)))⟩

/-- An output constraint that contradicts the others is refused. -/
theorem addOutput_unsatisfiable (houtputs : ¬ Formula.Satisfiable (s.outputs ++ [f.toNormal]))
    (σ : Session γ) : ∃ σ', (s.addOutput B f).Ends σ
      (.error (violation (.outputConstraints f.toNormal))) σ' := by
  have hs' := hs.addOutput hf
  obtain ⟨σ₁, hcheck⟩ := checkConstraints_fails hsound hcomplete hs' hs'.outputs houtputs
    (.outputConstraints f.toNormal) σ
  exact ⟨σ₁, (Run.ends_ok (checkVariables_eq_ok hf) σ).bind hcheck.bind_error⟩

end Formulas

/-! ### Judgment sets -/

section JudgmentSets

variable (hs : s.WellFormed) (hsound : B.Sound) (hcomplete : B.Complete) {n : Nat} (hn : n ≠ 0)

include hn in
/-- A group that accepts what is not on the agenda is refused, and told the first such formula. -/
theorem addJudgmentSet_unknown {gs : List Formula}
    (hfs : ∀ g ∈ fs, g.toNormal ∈ s.agenda.formulas) (hf : f.toNormal ∉ s.agenda.formulas)
    (σ : Session γ) : (s.addJudgmentSet B n (fs ++ f :: gs)).Ends σ
      (.error (violation (.unknownAgendaFormula f.toNormal))) σ := by
  rw [addJudgmentSet, if_neg hn, accept_eq_error hfs hf]
  exact Run.ends_throw _ σ

include hs hsound hcomplete hn

/-- A group of voters is added if there are some, they accept formulas of the agenda, and what they
accept is consistent. -/
theorem addJudgmentSet_ends (fs : List Formula)
    (haccept : s.accept (fs.map Formula.toNormal) ⟨n, [], []⟩ = .ok j) (hj : s.Consistent j)
    (σ : Session γ) : ∃ σ', (s.addJudgmentSet B n fs).Ends σ
      (.ok { s with profile := s.profile ++ [j] }) σ' := by
  obtain ⟨σ₁, hcheck⟩ := checkJudgmentSet_ends hsound hcomplete hs hj s.profile.length σ
  refine ⟨{ σ₁ with events := .judgmentAdded s.profile.length n :: σ₁.events }, ?_⟩
  rw [addJudgmentSet, if_neg hn, haccept]
  exact hcheck.bind ((Run.ends_record _ σ₁).bind (Run.ends_pure _ _))

/-- A group that is not consistent is refused. -/
theorem addJudgmentSet_fails (fs : List Formula)
    (haccept : s.accept (fs.map Formula.toNormal) ⟨n, [], []⟩ = .ok j) (hj : ¬ s.Consistent j)
    (σ : Session γ) : ∃ σ', (s.addJudgmentSet B n fs).Ends σ
      (.error (violation (.judgmentSet s.profile.length j.accepted))) σ' := by
  obtain ⟨σ₁, hcheck⟩ := checkJudgmentSet_fails hsound hcomplete hs hj s.profile.length σ
  refine ⟨σ₁, ?_⟩
  rw [addJudgmentSet, if_neg hn, haccept]
  exact hcheck.bind_error

end JudgmentSets

/-! ### Scenarios that are reached -/

/-- Formulas without repetitions can be added to the agenda as long as there are no voters. -/
theorem Reachable.extendAgenda (hs : s.Reachable) (fs : List Formula) (hprofile : s.profile = [])
    (hinputs : Formula.Satisfiable s.inputs) (houtputs : Formula.Satisfiable s.outputs)
    (hfs : ∀ f ∈ fs, f.toNormal = f ∧ ∀ v ∈ f.vars, v ∈ s.declared)
    (hnodup : (s.agenda.formulas ++ fs).Nodup) :
    Reachable { s with agenda := ⟨s.agenda.formulas ++ fs⟩ } := by
  induction fs generalizing s with
  | nil =>
    rw [List.append_nil]
    exact hs
  | cons f fs ih =>
    obtain ⟨⟨hnormal, hvars⟩, hfs⟩ := List.forall_mem_cons.1 hfs
    have hlist : s.agenda.formulas ++ f :: fs = (s.agenda.push f.toNormal).formulas ++ fs := by
      rw [hnormal, Agenda.push, List.append_assoc, List.singleton_append]
    rw [hlist] at hnodup ⊢
    have hnew : f.toNormal ∉ s.agenda.formulas := fun hf =>
      (List.nodup_append.1 (List.nodup_append.1 hnodup).1).2.2 _ hf _ List.mem_cons_self rfl
    obtain ⟨σ', hends⟩ := addToAgenda_ends hs.wellFormed (hnormal.symm ▸ hvars)
      Backend.exhaustive_sound Backend.exhaustive_complete hnew hinputs houtputs
      (by rw [hprofile]; exact fun j hj => absurd hj List.not_mem_nil) (.start ())
    exact ih (hs.change (c := .agenda f) Backend.exhaustive_sound hends) hprofile hinputs houtputs
      hfs hnodup

/-- Satisfiable output constraints can be added. -/
theorem Reachable.extendOutputs (hs : s.Reachable) (fs : List Formula)
    (hfs : ∀ f ∈ fs, f.toNormal = f ∧ ∀ v ∈ f.vars, v ∈ s.declared)
    (hA : Formula.Satisfiable (s.outputs ++ fs)) :
    Reachable { s with outputs := s.outputs ++ fs } := by
  induction fs generalizing s with
  | nil =>
    rw [List.append_nil]
    exact hs
  | cons f fs ih =>
    obtain ⟨⟨hnormal, hvars⟩, hfs⟩ := List.forall_mem_cons.1 hfs
    have hlist : s.outputs ++ f :: fs = s.outputs ++ [f.toNormal] ++ fs := by
      rw [hnormal, List.append_assoc, List.singleton_append]
    rw [hlist] at hA ⊢
    obtain ⟨A, hA⟩ := hA
    obtain ⟨σ', hends⟩ := addOutput_ends hs.wellFormed (hnormal.symm ▸ hvars)
      Backend.exhaustive_sound Backend.exhaustive_complete
      ⟨A, (List.forall_mem_append.1 hA).1⟩ (.start ())
    exact ih (hs.change (c := .output f) Backend.exhaustive_sound hends) hfs ⟨A, hA⟩

end Scenario

end JudgmentAggregation
