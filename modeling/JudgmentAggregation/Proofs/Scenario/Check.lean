import JudgmentAggregation.Proofs.Sat.Oracle
import JudgmentAggregation.Proofs.Scenario.Judgment

/-!
# What the checks say

The checks before a change ask whether some formulas are satisfiable together with the definitions
of the labels. They are exactly if the formulas alone are, since the labels can be given the values
of their formulas on top of a valuation of the atoms (`WellFormed.eval_complete`). So a check says
something about valuations of the atoms only. Whenever a check is passed, this holds
(`checkConstraints_ok`, …), even if the backend may give up. With a complete backend a check is
passed if it holds (`checkConstraints_ends`, …), and otherwise fails with its violation
(`checkConstraints_fails`, …).
-/

namespace JudgmentAggregation

namespace Scenario

variable {γ : Type} {B : Backend γ} {s : Scenario} {f : Formula} {fs : List Formula}
  {A : Valuation String} {j : JudgmentSet} {js : List JudgmentSet} {v : Violation} {i : Nat}
  {σ σ' : Session γ}

/-! ### Formulas and definitions -/

/-- On top of a valuation of the atoms there is one that is faithful to the agenda. -/
theorem WellFormed.eval_complete (hs : s.WellFormed) (hfs : ∀ f ∈ fs, NormalOver s.declared f)
    (hA : ∀ f ∈ fs, f.eval A = true) :
    ∀ f ∈ fs ++ s.agenda.definitions, f.eval (s.agenda.complete A) = true := by
  refine List.forall_mem_append.2 ⟨fun f hf => ?_, ?_⟩
  · rw [Agenda.eval_complete (hs.readable (hfs f hf)), hA f hf]
  · exact Agenda.eval_definitions.2
      (Agenda.faithful_complete fun f hf => hs.readable (hs.agenda f hf))

/-- The definitions of the labels do not matter for what is satisfiable. -/
theorem WellFormed.satisfiable_iff (hs : s.WellFormed) (hfs : ∀ f ∈ fs, NormalOver s.declared f) :
    Formula.Satisfiable (fs ++ s.agenda.definitions) ↔ Formula.Satisfiable fs := by
  constructor
  · rintro ⟨A, hA⟩
    exact ⟨A, (List.forall_mem_append.1 hA).1⟩
  · rintro ⟨A, hA⟩
    exact ⟨_, hs.eval_complete hfs hA⟩

/-- The formulas of a check are plain. -/
theorem WellFormed.plain (hs : s.WellFormed) (hfs : ∀ f ∈ fs, NormalOver s.declared f) :
    ∀ f ∈ fs ++ s.agenda.definitions, Converter.Plain "_aux" f :=
  List.forall_mem_append.2 ⟨fun f hf => (hfs f hf).plain hs, fun _ hf => (hs.definitions hf).2⟩

/-- The formulas of a judgment set are satisfiable exactly if it is consistent. -/
theorem WellFormed.satisfiable_judgmentFormulas_iff (hs : s.WellFormed) :
    Formula.Satisfiable (s.judgmentFormulas j) ↔ s.Consistent j := by
  constructor
  · rintro ⟨A, hA⟩
    obtain ⟨hformulas, hjudgments⟩ := List.forall_mem_append.1 hA
    obtain ⟨hinputs, hdefinitions⟩ := List.forall_mem_append.1 hformulas
    refine ⟨A, hinputs, fun p hp => ?_⟩
    have hl : p.1 ∈ s.agenda.labels := s.agenda.map_fst_entries ▸ List.mem_map_of_mem hp
    have hjudgment := hjudgments _ (List.mem_map_of_mem hl)
    rw [← Agenda.eval_definitions.1 hdefinitions p hp]
    cases haccept : j.accepts p.1 <;> simpa [haccept] using hjudgment
  · rintro ⟨A, hA, haccepts⟩
    refine ⟨s.agenda.complete A, List.forall_mem_append.2
      ⟨hs.eval_complete hs.inputs hA, fun f hf => ?_⟩⟩
    -- A judgment on a label is one on its formula.
    obtain ⟨l, hl, rfl⟩ := List.mem_map.1 hf
    rw [← Agenda.map_fst_entries] at hl
    obtain ⟨p, hp, rfl⟩ := List.mem_map.1 hl
    have hreadable := fun f hf => hs.readable (hs.agenda f hf)
    have hvalue := Agenda.faithful_complete (A := A) hreadable p hp
    rw [Agenda.eval_complete (hreadable p.2 (List.of_mem_zip hp).2), haccepts p hp] at hvalue
    cases haccept : j.accepts p.1 <;> simp [hvalue, haccept]

/-- The judgments of a group are plain. -/
theorem plain_judgments (s : Scenario) (j : JudgmentSet) :
    ∀ f ∈ s.judgments j, Converter.Plain "_aux" f := by
  intro f hf v hv
  obtain ⟨l, -, rfl⟩ := List.mem_map.1 hf
  have hname : v = Label.variableName l := by
    split at hv <;> simpa using hv
  rw [hname]
  exact Label.not_auxiliary_variableName l

/-- The formulas of the check of a group are plain. -/
theorem WellFormed.plain_judgmentFormulas (hs : s.WellFormed) (j : JudgmentSet) :
    ∀ f ∈ s.judgmentFormulas j, Converter.Plain "_aux" f :=
  List.forall_mem_append.2 ⟨hs.plain hs.inputs, s.plain_judgments j⟩

/-! ### Checks that are passed -/

section Sound

variable (hsound : B.Sound)

include hsound

/-- Formulas that pass the check are satisfiable. -/
theorem checkSatisfiable_ok (hplain : ∀ f ∈ fs, Converter.Plain "_aux" f)
    (h : (s.checkSatisfiable B fs v).Ends σ (.ok ()) σ') : Formula.Satisfiable fs := by
  obtain ⟨b, σ₁, hends, hrest⟩ := h.of_bind
  have hb := Oracle.satisfiable_of_ends hsound hplain hends.of_inContext
  cases b with
  | true => exact hb.1 rfl
  | false => cases hrest

/-- Constraints that pass the check are satisfiable. -/
theorem checkConstraints_ok (hs : s.WellFormed) (hfs : ∀ f ∈ fs, NormalOver s.declared f)
    (h : (s.checkSatisfiable B (fs ++ s.agenda.definitions) v).Ends σ (.ok ()) σ') :
    Formula.Satisfiable fs :=
  (hs.satisfiable_iff hfs).1 (checkSatisfiable_ok hsound (hs.plain hfs) h)

/-- A group that passes the check is consistent. -/
theorem checkJudgmentSet_ok (hs : s.WellFormed)
    (h : (s.checkJudgmentSet B i j).Ends σ (.ok ()) σ') : s.Consistent j :=
  hs.satisfiable_judgmentFormulas_iff.1 (checkSatisfiable_ok hsound (hs.plain_judgmentFormulas j) h)

/-- Groups that pass the check are all consistent. -/
theorem checkJudgmentSetsFrom_ok (hs : s.WellFormed)
    (h : (s.checkJudgmentSetsFrom B i js).Ends σ (.ok ()) σ') : ∀ j ∈ js, s.Consistent j := by
  induction js generalizing i σ with
  | nil => exact List.forall_mem_nil _
  | cons j js ih =>
    obtain ⟨_, σ₁, hcheck, hrest⟩ := h.of_bind
    exact List.forall_mem_cons.2 ⟨checkJudgmentSet_ok hsound hs hcheck, ih hrest⟩

end Sound

/-! ### Checks that are complete -/

section Complete

variable (hsound : B.Sound) (hcomplete : B.Complete)

include hsound hcomplete

/-- Satisfiable formulas pass the check. -/
theorem checkSatisfiable_ends (hplain : ∀ f ∈ fs, Converter.Plain "_aux" f)
    (hfs : Formula.Satisfiable fs) (v : Violation) (σ : Session γ) :
    ∃ σ', (s.checkSatisfiable B fs v).Ends σ (.ok ()) σ' := by
  obtain ⟨b, σ', hends, hb⟩ := Oracle.satisfiable_ends hsound hcomplete hplain s.allVariables σ
  cases hb.2 hfs
  exact ⟨σ', (hends.inContext_ok _).bind (Run.ends_pure _ σ')⟩

/-- Formulas that are not satisfiable do not pass the check. -/
theorem checkSatisfiable_fails (hplain : ∀ f ∈ fs, Converter.Plain "_aux" f)
    (hfs : ¬ Formula.Satisfiable fs) (v : Violation) (σ : Session γ) :
    ∃ σ', (s.checkSatisfiable B fs v).Ends σ (.error (violation v)) σ' := by
  obtain ⟨b, σ', hends, hb⟩ := Oracle.satisfiable_ends hsound hcomplete hplain s.allVariables σ
  obtain rfl : b = false := Bool.eq_false_iff.2 fun h => hfs (hb.1 h)
  exact ⟨σ', (hends.inContext_ok _).bind (Run.ends_throw _ σ')⟩

/-- Satisfiable constraints pass the check. -/
theorem checkConstraints_ends (hs : s.WellFormed) (hfs : ∀ f ∈ fs, NormalOver s.declared f)
    (hA : Formula.Satisfiable fs) (v : Violation) (σ : Session γ) :
    ∃ σ', (s.checkSatisfiable B (fs ++ s.agenda.definitions) v).Ends σ (.ok ()) σ' :=
  checkSatisfiable_ends hsound hcomplete (hs.plain hfs) ((hs.satisfiable_iff hfs).2 hA) v σ

/-- Constraints that are not satisfiable do not pass the check. -/
theorem checkConstraints_fails (hs : s.WellFormed) (hfs : ∀ f ∈ fs, NormalOver s.declared f)
    (hA : ¬ Formula.Satisfiable fs) (v : Violation) (σ : Session γ) :
    ∃ σ', (s.checkSatisfiable B (fs ++ s.agenda.definitions) v).Ends σ (.error (violation v)) σ' :=
  checkSatisfiable_fails hsound hcomplete (hs.plain hfs) ((hs.satisfiable_iff hfs).not.2 hA) v σ

/-- A consistent group passes the check. -/
theorem checkJudgmentSet_ends (hs : s.WellFormed) (hj : s.Consistent j) (i : Nat) (σ : Session γ) :
    ∃ σ', (s.checkJudgmentSet B i j).Ends σ (.ok ()) σ' :=
  checkSatisfiable_ends hsound hcomplete (hs.plain_judgmentFormulas j)
    (hs.satisfiable_judgmentFormulas_iff.2 hj) _ σ

/-- A group that is not consistent does not pass the check. -/
theorem checkJudgmentSet_fails (hs : s.WellFormed) (hj : ¬ s.Consistent j) (i : Nat)
    (σ : Session γ) : ∃ σ', (s.checkJudgmentSet B i j).Ends σ
      (.error (violation (.judgmentSet i j.accepted))) σ' :=
  checkSatisfiable_fails hsound hcomplete (hs.plain_judgmentFormulas j)
    (hs.satisfiable_judgmentFormulas_iff.not.2 hj) _ σ

/-- Consistent groups pass the check. -/
theorem checkJudgmentSetsFrom_ends (hs : s.WellFormed) (hjs : ∀ j ∈ js, s.Consistent j) (i : Nat)
    (σ : Session γ) : ∃ σ', (s.checkJudgmentSetsFrom B i js).Ends σ (.ok ()) σ' := by
  induction js generalizing i σ with
  | nil => exact ⟨σ, Run.ends_pure _ σ⟩
  | cons j js ih =>
    obtain ⟨hj, hjs⟩ := List.forall_mem_cons.1 hjs
    obtain ⟨σ₁, hends⟩ := checkJudgmentSet_ends hsound hcomplete hs hj i σ
    obtain ⟨σ', hrest⟩ := ih hjs (i + 1) σ₁
    exact ⟨σ', hends.bind hrest⟩

/-- The first judgment set that is not consistent is the one that the failure names. -/
theorem checkJudgmentSetsFrom_fails (hs : s.WellFormed) (hjs : ∀ j ∈ js, s.Consistent j)
    (hj : ¬ s.Consistent j) (js' : List JudgmentSet) (i : Nat) (σ : Session γ) :
    ∃ σ', (s.checkJudgmentSetsFrom B i (js ++ j :: js')).Ends σ
      (.error (violation (.judgmentSet (i + js.length) j.accepted))) σ' := by
  induction js generalizing i σ with
  | nil =>
    obtain ⟨σ', hends⟩ := checkJudgmentSet_fails hsound hcomplete hs hj i σ
    exact ⟨σ', hends.bind_error⟩
  | cons k js ih =>
    obtain ⟨hk, hjs⟩ := List.forall_mem_cons.1 hjs
    obtain ⟨σ₁, hends⟩ := checkJudgmentSet_ends hsound hcomplete hs hk i σ
    obtain ⟨σ', hrest⟩ := ih hjs (i + 1) σ₁
    rw [List.length_cons, ← Nat.add_assoc, Nat.add_right_comm]
    exact ⟨σ', hends.bind hrest⟩

end Complete

end Scenario

end JudgmentAggregation
