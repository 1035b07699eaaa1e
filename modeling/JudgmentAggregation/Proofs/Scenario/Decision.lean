import JudgmentAggregation.Proofs.Formula.Parse
import JudgmentAggregation.Proofs.ListFacts
import JudgmentAggregation.Proofs.Scenario.Change
import JudgmentAggregation.Proofs.Scenario.Invariant

/-!
# Which changes are made

What an attempt at a change answers and leaves behind, in terms of formulas and valuations only
(`Scenario.Decision`): no labels, clauses or solvers occur. With a sound and complete backend, the
attempts at changing a reachable scenario are decided in this way and in no other
(`Scenario.attempt_exact`). A new formula of the agenda, in particular, never makes the constraints
unsatisfiable, so there is no such failure.
-/

namespace JudgmentAggregation

/-- The formula that a change adds to a scenario. -/
def Change.formula? : Change → Option Formula
  | .agenda f | .input f | .output f => some f
  | .variable _ | .judgment .. => none

namespace Scenario

/-- All the variables of a formula are declared. -/
def Declares (s : Scenario) (f : Formula) : Prop :=
  ∀ v ∈ f.vars, v ∈ s.declared

/-- The least variable of a formula that is not declared. -/
structure LeastUndeclared (s : Scenario) (f : Formula) (v : String) : Prop where
  mem_vars : v ∈ f.vars
  undeclared : v ∉ s.declared
  least : ∀ w ∈ f.vars, w ∉ s.declared → v ≤ w

/-- A judgment set **admits** a formula with a truth value when some valuation backs it and gives
the formula this value. -/
def Admits (s : Scenario) (f : Formula) (b : Bool) (j : JudgmentSet) : Prop :=
  ∃ A, s.Backs j A ∧ f.eval A = b

/-- The **decision** about a change: what is answered, and the scenario afterwards. -/
inductive Decision (s : Scenario) : Change → Result (Option Nat) → Scenario → Prop
  /-- The name is declared. -/
  | declared {name : String} (hname : IsWord name) :
    Decision s (.variable name) (.ok none) { s with declared := SortedList.insert name s.declared }
  /-- The name is no formula. -/
  | unreadable {name : String} {e : Error} (hname : Formula.parse name = .error e) :
    Decision s (.variable name) (.error (e.inContext (.declaringVariable name))) s
  /-- The name is a formula, but not an atom. -/
  | compound {name : String} {f : Formula} (hf : Formula.parse name = .ok f)
    (hname : ¬ IsWord name) :
    Decision s (.variable name) (.error (.ofCause (.malformed ⟨0, .notAnAtom name⟩))) s
  /-- A formula uses a variable that is not declared. -/
  | undeclared {c : Change} {f : Formula} {v : String} (hc : c.formula? = some f)
    (hv : s.LeastUndeclared f v) :
    Decision s c (.error (violation (.undeclaredVariable v f.toNormal))) s
  /-- The formula is in the agenda already. -/
  | duplicate {f : Formula} (hvars : s.Declares f) (hf : f.toNormal ∈ s.agenda.formulas) :
    Decision s (.agenda f) (.error (violation (.duplicateAgendaFormula f.toNormal))) s
  /-- A judgment set, which rejects the new formula, contradicts the input constraints with it. -/
  | contradicted {f : Formula} {js js' : List JudgmentSet} {j : JudgmentSet}
    (hvars : s.Declares f) (hf : f.toNormal ∉ s.agenda.formulas)
    (hprofile : s.profile = js ++ j :: js') (hjs : ∀ k ∈ js, s.Admits f false k)
    (hj : ¬ s.Admits f false j) :
    Decision s (.agenda f) (.error (violation (.judgmentSet js.length j.accepted))) s
  /-- The formula is added to the agenda, and the answer is its label. -/
  | extended {f : Formula} (hvars : s.Declares f) (hf : f.toNormal ∉ s.agenda.formulas)
    (hprofile : ∀ j ∈ s.profile, s.Admits f false j) :
    Decision s (.agenda f) (.ok (some (s.agenda.size + 1)))
      { s with agenda := s.agenda.push f.toNormal }
  /-- Nothing satisfies the input constraints with the new one. -/
  | unsatisfiableInputs {f : Formula} (hvars : s.Declares f)
    (hf : ¬ Formula.Satisfiable (s.inputs ++ [f])) :
    Decision s (.input f) (.error (violation (.inputConstraints f.toNormal))) s
  /-- A judgment set contradicts the input constraints with the new one. -/
  | excluded {f : Formula} {js js' : List JudgmentSet} {j : JudgmentSet}
    (hvars : s.Declares f) (hf : Formula.Satisfiable (s.inputs ++ [f]))
    (hprofile : s.profile = js ++ j :: js') (hjs : ∀ k ∈ js, s.Admits f true k)
    (hj : ¬ s.Admits f true j) :
    Decision s (.input f) (.error (violation (.judgmentSet js.length j.accepted))) s
  /-- The input constraint is added. -/
  | constrained {f : Formula} (hvars : s.Declares f) (hf : Formula.Satisfiable (s.inputs ++ [f]))
    (hprofile : ∀ j ∈ s.profile, s.Admits f true j) :
    Decision s (.input f) (.ok none) { s with inputs := s.inputs ++ [f.toNormal] }
  /-- Nothing satisfies the output constraints with the new one. -/
  | unsatisfiableOutputs {f : Formula} (hvars : s.Declares f)
    (hf : ¬ Formula.Satisfiable (s.outputs ++ [f])) :
    Decision s (.output f) (.error (violation (.outputConstraints f.toNormal))) s
  /-- The output constraint is added. -/
  | restricted {f : Formula} (hvars : s.Declares f) (hf : Formula.Satisfiable (s.outputs ++ [f])) :
    Decision s (.output f) (.ok none) { s with outputs := s.outputs ++ [f.toNormal] }
  /-- The group has no voter. -/
  | voterless {fs : List Formula} :
    Decision s (.judgment 0 fs) (.error (violation (.nullMultiplicity s.profile.length))) s
  /-- The group accepts a formula that is not in the agenda. -/
  | unknown {n : Nat} {fs fs' : List Formula} {f : Formula} (hn : n ≠ 0)
    (hfs : ∀ g ∈ fs, g.toNormal ∈ s.agenda.formulas) (hf : f.toNormal ∉ s.agenda.formulas) :
    Decision s (.judgment n (fs ++ f :: fs'))
      (.error (violation (.unknownAgendaFormula f.toNormal))) s
  /-- What the group accepts contradicts the input constraints. -/
  | inconsistent {n : Nat} {fs : List Formula} (hn : n ≠ 0)
    (hfs : ∀ f ∈ fs, f.toNormal ∈ s.agenda.formulas) (hbacks : ∀ A, ¬ s.Backs (s.group n fs) A) :
    Decision s (.judgment n fs)
      (.error (violation (.judgmentSet s.profile.length (s.group n fs).accepted))) s
  /-- The group is added to the profile. -/
  | joined {n : Nat} {fs : List Formula} (hn : n ≠ 0)
    (hfs : ∀ f ∈ fs, f.toNormal ∈ s.agenda.formulas) (hbacks : ∃ A, s.Backs (s.group n fs) A) :
    Decision s (.judgment n fs) (.ok none) { s with profile := s.profile ++ [s.group n fs] }

variable {γ : Type} {B : Backend γ} {s s' : Scenario} {f : Formula} {v : String} {c : Change}
  {j : JudgmentSet} {r : Result (Option Nat)}

/-! ### Formulas and their normal forms -/

/-- If the variables of a formula are declared, so are those of its normal form. -/
theorem Declares.toNormal (h : s.Declares f) : ∀ v ∈ f.toNormal.vars, v ∈ s.declared :=
  fun v hv => h v (Formula.mem_vars_toNormal.1 hv)

/-- A normal form is satisfiable together with some formulas exactly if the formula is. -/
theorem satisfiable_toNormal_iff {fs : List Formula} :
    Formula.Satisfiable (fs ++ [f.toNormal]) ↔ Formula.Satisfiable (fs ++ [f]) := by
  simp [Formula.Satisfiable, or_imp, forall_and]

/-- The least undeclared variable is that of the normal form. -/
theorem LeastUndeclared.toNormal (h : s.LeastUndeclared f v) :
    s.LeastUndeclared f.toNormal v :=
  ⟨Formula.mem_vars_toNormal.2 h.mem_vars, h.undeclared, fun w hw =>
    h.least w (Formula.mem_vars_toNormal.1 hw)⟩

/-- Variables are gone through in order, so the first one that is not declared is the least. -/
theorem leastUndeclared_of_find? (h : (f.vars.find? fun v => !s.declared.contains v) = some v) :
    s.LeastUndeclared f v := by
  obtain ⟨hv, vs, ws, hvars, hvs⟩ := List.find?_eq_some_iff_append.1 h
  have hsorted := f.sorted_vars
  rw [hvars] at hsorted
  refine ⟨by simp [hvars], by simpa using hv, fun w hw hundeclared => ?_⟩
  rw [hvars] at hw
  rcases List.mem_append.1 hw with hw | hw
  · exact absurd (hvs w hw) (by simpa using hundeclared)
  · rcases List.mem_cons.1 hw with rfl | hw
    · exact Std.le_refl w
    · have hlt := (List.pairwise_cons.1 (List.pairwise_append.1 hsorted).2.1).1 w hw
      exact Std.le_of_lt (compareOfLessAndEq_eq_lt.1 hlt)

/-- Either all the variables are declared or one of the others is the least. -/
theorem declares_or_exists_leastUndeclared (s : Scenario) (f : Formula) :
    s.Declares f ∨ ∃ v, s.LeastUndeclared f v := by
  cases h : f.vars.find? fun v => !s.declared.contains v with
  | none => exact .inl fun v hv => by simpa using List.find?_eq_none.1 h v hv
  | some v => exact .inr ⟨v, leastUndeclared_of_find? h⟩

/-- The least undeclared variable is the one that is told. -/
theorem checkVariables_eq_error (h : s.LeastUndeclared f v) :
    s.checkVariables f = .error (violation (.undeclaredVariable v f)) := by
  rw [checkVariables]
  split
  · next w hw =>
    have hleast := leastUndeclared_of_find? hw
    rw [Std.le_antisymm (h.least w hleast.mem_vars hleast.undeclared)
      (hleast.least v h.mem_vars h.undeclared)]
  · next hnone => exact absurd h.undeclared (by simpa using List.find?_eq_none.1 hnone v h.mem_vars)

/-! ### Judgment sets -/

/-- A group is consistent with a new formula exactly if it admits to reject it. -/
theorem consistent_push_iff (hs : s.Valid) (hf : f.toNormal ∉ s.agenda.formulas)
    (hj : j ∈ s.profile) :
    Consistent { s with agenda := s.agenda.push f.toNormal } j ↔ s.Admits f false j := by
  have hon := (hs.profile j hj).on
  rw [consistent_iff (Agenda.nodup_push hs.nodup hf) (hon.push f.toNormal)]
  refine exists_congr fun A => ?_
  rw [backs_push_iff hon hf, Formula.eval_toNormal]

/-- A group is consistent with a new input constraint exactly if it admits it. -/
theorem consistent_input_iff (hs : s.Valid) (hj : j ∈ s.profile) :
    Consistent { s with inputs := s.inputs ++ [f.toNormal] } j ↔ s.Admits f true j := by
  refine (consistent_iff (s := { s with inputs := s.inputs ++ [f.toNormal] }) hs.nodup
    (hs.profile j hj).on).trans (exists_congr fun A => ?_)
  rw [backs_input_iff, Formula.eval_toNormal]

/-- A new group is consistent exactly if a valuation backs it. -/
theorem consistent_group_iff (hs : s.Valid) {n : Nat} {fs : List Formula}
    (hfs : ∀ f ∈ fs, f.toNormal ∈ s.agenda.formulas) :
    s.Consistent (s.group n fs) ↔ ∃ A, s.Backs (s.group n fs) A :=
  consistent_iff hs.nodup (group_on hfs n)

/-! ### Every decision is made -/

/-- A word is declared. -/
theorem declare_eq_ok {name : String} (hname : IsWord name) :
    s.declare name = .ok { s with declared := SortedList.insert name s.declared } := by
  rw [declare, Formula.parse_eq_atom_iff.2 hname]
  exact if_pos rfl

/-- A name that cannot be parsed is refused, with what is wrong with it. -/
theorem declare_unreadable {name : String} {e : Error} (hname : Formula.parse name = .error e) :
    s.declare name = .error (e.inContext (.declaringVariable name)) := by
  rw [declare, hname]

/-- A name that is no atom is refused. -/
theorem declare_compound {name : String} (hf : Formula.parse name = .ok f)
    (hname : ¬ IsWord name) :
    s.declare name = .error (.ofCause (.malformed ⟨0, .notAnAtom name⟩)) := by
  have hne : f ≠ .atom name := by
    rintro rfl
    exact hname (Formula.parse_eq_atom_iff.1 hf)
  rw [declare, hf]
  exact if_neg hne

/-- A formula with an undeclared variable is refused, whatever it is for. -/
theorem change_undeclared (hc : c.formula? = some f) (hv : s.LeastUndeclared f v) (σ : Session γ) :
    (s.change B c).Ends σ (.error (violation (.undeclaredVariable v f.toNormal))) σ := by
  have hcheck := Run.ends_error (checkVariables_eq_error hv.toNormal) σ
  cases c <;> cases hc <;> exact hcheck.bind_error

section Made

variable (hs : s.Valid) (hsound : B.Sound) (hcomplete : B.Complete)

include hs hsound hcomplete

/-- An attempt comes out as it is decided. -/
theorem Decision.run_attempt (h : s.Decision c r s') (σ : Session γ) :
    ∃ σ', (s.attempt B c).run σ = ((r, s'), σ') := by
  have hw := hs.toWellFormed
  -- A change is either made or refused, and a refused one leaves the scenario as it was.
  have made {c s'} (h : ∃ σ', (s.change B c).Ends σ (.ok s') σ') :
      ∃ σ', (s.attempt B c).run σ = ((.ok (c.label? s'), s'), σ') :=
    h.imp fun _ => run_attempt_ok
  have refused {c e} (h : ∃ σ', (s.change B c).Ends σ (.error e) σ') :
      ∃ σ', (s.attempt B c).run σ = ((.error e, s), σ') :=
    h.imp fun _ => run_attempt_error
  have hmem {js js' j k} (hprofile : s.profile = js ++ j :: js') (hk : k ∈ js) : k ∈ s.profile := by
    simp [hprofile, hk]
  have hmem' {js js' j} (hprofile : s.profile = js ++ j :: js') : j ∈ s.profile := by
    simp [hprofile]
  cases h with
  | declared hname => exact made ⟨σ, Run.ends_ok (declare_eq_ok hname) σ⟩
  | unreadable hname => exact refused ⟨σ, Run.ends_error (declare_unreadable hname) σ⟩
  | compound hf hname => exact refused ⟨σ, Run.ends_error (declare_compound hf hname) σ⟩
  | undeclared hc hv => exact refused ⟨σ, change_undeclared hc hv σ⟩
  | duplicate hvars hf => exact refused ⟨σ, addToAgenda_duplicate hvars.toNormal hf σ⟩
  | contradicted hvars hf hprofile hjs hj =>
    exact refused (addToAgenda_fails hw hvars.toNormal hsound hcomplete hf hs.satisfiable_inputs
      hs.satisfiable_outputs hprofile
      (fun k hk => (consistent_push_iff hs hf (hmem hprofile hk)).2 (hjs k hk))
      ((consistent_push_iff hs hf (hmem' hprofile)).not.2 hj) σ)
  | @extended f hvars hf hprofile =>
    have hends := made (c := .agenda f) (addToAgenda_ends hw hvars.toNormal hsound hcomplete hf
      hs.satisfiable_inputs hs.satisfiable_outputs
      (fun j hj => (consistent_push_iff hs hf hj).2 (hprofile j hj)) σ)
    rwa [Change.label?, Agenda.size_push] at hends
  | unsatisfiableInputs hvars hf =>
    exact refused (addInput_unsatisfiable hw hvars.toNormal hsound hcomplete
      (satisfiable_toNormal_iff.not.2 hf) σ)
  | excluded hvars hf hprofile hjs hj =>
    exact refused (addInput_fails hw hvars.toNormal hsound hcomplete
      (satisfiable_toNormal_iff.2 hf) hprofile
      (fun k hk => (consistent_input_iff hs (hmem hprofile hk)).2 (hjs k hk))
      ((consistent_input_iff hs (hmem' hprofile)).not.2 hj) σ)
  | @constrained f hvars hf hprofile =>
    exact made (c := .input f) (addInput_ends hw hvars.toNormal hsound hcomplete
      (satisfiable_toNormal_iff.2 hf)
      (fun j hj => (consistent_input_iff hs hj).2 (hprofile j hj)) σ)
  | unsatisfiableOutputs hvars hf =>
    exact refused (addOutput_unsatisfiable hw hvars.toNormal hsound hcomplete
      (satisfiable_toNormal_iff.not.2 hf) σ)
  | @restricted f hvars hf =>
    exact made (c := .output f) (addOutput_ends hw hvars.toNormal hsound hcomplete
      (satisfiable_toNormal_iff.2 hf) σ)
  | @voterless fs => exact refused (c := .judgment 0 fs) ⟨σ, Run.ends_throw _ σ⟩
  | unknown hn hfs hf => exact refused ⟨σ, addJudgmentSet_unknown hn hfs hf σ⟩
  | @inconsistent n fs hn hfs hbacks =>
    exact refused (addJudgmentSet_fails hw hsound hcomplete hn fs (accept_eq_group hfs n)
      ((consistent_group_iff hs hfs).not.2 (not_exists.2 hbacks)) σ)
  | @joined n fs hn hfs hbacks =>
    exact made (c := .judgment n fs) (addJudgmentSet_ends hw hsound hcomplete hn fs
      (accept_eq_group hfs n) ((consistent_group_iff hs hfs).2 hbacks) σ)

end Made

/-! ### There is always a decision -/

/-- Every change is decided in some way. -/
theorem exists_decision (s : Scenario) (c : Change) : ∃ r s', s.Decision c r s' := by
  cases c with
  | «variable» name =>
    by_cases hname : IsWord name
    · exact ⟨_, _, .declared hname⟩
    · cases hparse : Formula.parse name with
      | error e => exact ⟨_, _, .unreadable hparse⟩
      | ok f => exact ⟨_, _, .compound hparse hname⟩
  | agenda f =>
    rcases s.declares_or_exists_leastUndeclared f with hvars | ⟨v, hv⟩
    · by_cases hf : f.toNormal ∈ s.agenda.formulas
      · exact ⟨_, _, .duplicate hvars hf⟩
      · rcases ListFacts.forall_or_exists_first (s.Admits f false) s.profile with
          hprofile | ⟨js, j, js', hprofile, hjs, hj⟩
        · exact ⟨_, _, .extended hvars hf hprofile⟩
        · exact ⟨_, _, .contradicted hvars hf hprofile hjs hj⟩
    · exact ⟨_, _, .undeclared rfl hv⟩
  | input f =>
    rcases s.declares_or_exists_leastUndeclared f with hvars | ⟨v, hv⟩
    · by_cases hf : Formula.Satisfiable (s.inputs ++ [f])
      · rcases ListFacts.forall_or_exists_first (s.Admits f true) s.profile with
          hprofile | ⟨js, j, js', hprofile, hjs, hj⟩
        · exact ⟨_, _, .constrained hvars hf hprofile⟩
        · exact ⟨_, _, .excluded hvars hf hprofile hjs hj⟩
      · exact ⟨_, _, .unsatisfiableInputs hvars hf⟩
    · exact ⟨_, _, .undeclared rfl hv⟩
  | output f =>
    rcases s.declares_or_exists_leastUndeclared f with hvars | ⟨v, hv⟩
    · by_cases hf : Formula.Satisfiable (s.outputs ++ [f])
      · exact ⟨_, _, .restricted hvars hf⟩
      · exact ⟨_, _, .unsatisfiableOutputs hvars hf⟩
    · exact ⟨_, _, .undeclared rfl hv⟩
  | judgment n fs =>
    by_cases hn : n = 0
    · subst hn
      exact ⟨_, _, .voterless⟩
    · rcases ListFacts.forall_or_exists_first (fun f => f.toNormal ∈ s.agenda.formulas) fs with
        hfs | ⟨fs, f, fs', rfl, hfs, hf⟩
      · by_cases hbacks : ∃ A, s.Backs (s.group n fs) A
        · exact ⟨_, _, .joined hn hfs hbacks⟩
        · exact ⟨_, _, .inconsistent hn hfs (not_exists.1 hbacks)⟩
      · exact ⟨_, _, .unknown hn hfs hf⟩

/-- **Changes are decided exactly.** In a reachable scenario, with a sound and complete backend, an
attempt at a change answers and leaves behind what is decided in terms of formulas and valuations,
and this is nothing else. -/
theorem attempt_exact (hs : s.Reachable) (hsound : B.Sound) (hcomplete : B.Complete) (c : Change)
    (r : Result (Option Nat)) (s' : Scenario) (σ : Session γ) :
    ((s.attempt B c).run σ).1 = (r, s') ↔ s.Decision c r s' := by
  have hmade {r s'} (h : s.Decision c r s') : ((s.attempt B c).run σ).1 = (r, s') := by
    obtain ⟨σ', hrun⟩ := h.run_attempt hs.valid hsound hcomplete σ
    rw [hrun]
  refine ⟨fun h => ?_, hmade⟩
  obtain ⟨r', s'', hdecision⟩ := s.exists_decision c
  cases h.symm.trans (hmade hdecision)
  exact hdecision

/-- Voters who accept `a` cannot reject that `a` implies `b`. -/
theorem attempt_exact_committed :
    committed.Reachable ∧ Backend.exhaustive.Sound ∧ Backend.exhaustive.Complete ∧
      committed.Decision (.agenda (.implies (.atom "a") (.atom "b")))
        (.error (violation (.judgmentSet 0 [.atom "a"]))) committed := by
  refine ⟨committed_reachable, Backend.exhaustive_sound, Backend.exhaustive_complete, ?_⟩
  exact (attempt_exact committed_reachable Backend.exhaustive_sound Backend.exhaustive_complete
    _ _ _ (.start ())).1 (by decide +kernel)

end Scenario

end JudgmentAggregation
