import JudgmentAggregation.Proofs.Formula.NormalForm
import JudgmentAggregation.Proofs.Formula.Words
import JudgmentAggregation.Proofs.Session
import JudgmentAggregation.Sat.Exhaustive
import JudgmentAggregation.Scenario.Change

/-!
# Reachable scenarios

A scenario is **reachable** when changes build it from the empty one. For each kind of change there
is one lemma that says what holds when it is made: which checks it has passed and what it has become
(`addToAgenda_ok`, …). From these, every reachable scenario is **well-formed**: its declared
variables are words, and its formulas are in negation normal form over the declared variables.
-/

namespace JudgmentAggregation

namespace Scenario

variable {γ : Type} {B : Backend γ} {c : Change} {f : Formula} {name : String} {n : Nat}
  {fs : List Formula} {v : Violation} {s s' : Scenario} {σ σ' : Session γ}

/-- A scenario is **reachable** when changes build it from the empty one, each made with a sound
backend in some session. A change that fails leaves the scenario as it is. -/
inductive Reachable : Scenario → Prop
  | empty : Reachable empty
  | change {γ : Type} {B : Backend γ} {c : Change} {s s' : Scenario} {σ σ' : Session γ}
    (h : Reachable s) (hB : B.Sound) (hc : (s.change B c).Ends σ (.ok s') σ') : Reachable s'

/-- The scenario that some changes make, one after the other, where exhaustive search does the
solving. -/
def build? : List Change → Scenario → Option Scenario
  | [], s => some s
  | c :: cs, s =>
    match ((s.change .exhaustive c).run.run (.start ())).1 with
    | .ok s => build? cs s
    | .error _ => none

/-- What changes build from a reachable scenario is reachable. -/
theorem Reachable.build (h : s.Reachable) (cs : List Change) (hs : s.build? cs = some s') :
    s'.Reachable := by
  induction cs generalizing s with
  | nil =>
    cases hs
    exact h
  | cons c cs ih =>
    rw [build?.eq_def] at hs
    dsimp only at hs
    rcases hc : (s.change .exhaustive c).run.run (.start ()) with ⟨r, σ⟩
    rw [hc] at hs
    cases r with
    | ok s₁ => exact ih (h.change Backend.exhaustive_sound hc) hs
    | error e => cases hs

/-! ### What a change has passed and made -/

/-- The variables of a formula that passes the check are declared. -/
theorem checkVariables_ok (h : s.checkVariables f = .ok ()) : ∀ v ∈ f.vars, v ∈ s.declared := by
  intro v hv
  rw [checkVariables] at h
  split at h
  · cases h
  · next hnone =>
    simpa using List.find?_eq_none.1 hnone v hv

/-- What is declared is a word. -/
theorem declare_ok (h : s.declare name = .ok s') :
    IsWord name ∧ s' = { s with declared := SortedList.insert name s.declared } := by
  rw [declare] at h
  split at h
  · cases h
  · next f hf =>
    split at h
    · next hatom =>
      cases h
      subst hatom
      exact ⟨Formula.parse_readable hf name (by simp), rfl⟩
    · cases h

/-- A formula that is added to the agenda has passed its checks and is new there. -/
theorem addToAgenda_ok (h : (s.addToAgenda B f).Ends σ (.ok s') σ') :
    s.checkVariables f.toNormal = .ok () ∧ s.agenda.labelOf? f.toNormal = none ∧
      s' = { s with agenda := s.agenda.push f.toNormal } ∧
      ∃ σ₁ σ₂ σ₃, (s'.checkInputs B f.toNormal).Ends σ (.ok ()) σ₁ ∧
        (s'.checkOutputs B f.toNormal).Ends σ₁ (.ok ()) σ₂ ∧
        (s'.checkJudgmentSets B).Ends σ₂ (.ok ()) σ₃ := by
  obtain ⟨_, _, hcheck, hrest⟩ := h.of_bind
  obtain ⟨hvars, rfl⟩ := hcheck.of_ofResult
  dsimp only at hrest
  split at hrest
  · obtain ⟨_, _, hthrow, _⟩ := hrest.of_bind
    cases hthrow
  · next hnew =>
    obtain ⟨_, σ₁, hinputs, hrest⟩ := hrest.of_bind
    obtain ⟨_, σ₂, houtputs, hrest⟩ := hrest.of_bind
    obtain ⟨_, σ₃, hsets, hrest⟩ := hrest.of_bind
    obtain ⟨_, _, _, hpure⟩ := hrest.of_bind
    cases hpure
    exact ⟨hvars, by simpa using hnew, rfl, σ₁, σ₂, σ₃, hinputs, houtputs, hsets⟩

/-- An input constraint that is added has passed its checks. -/
theorem addInput_ok (h : (s.addInput B f).Ends σ (.ok s') σ') :
    s.checkVariables f.toNormal = .ok () ∧ s' = { s with inputs := s.inputs ++ [f.toNormal] } ∧
      ∃ σ₁ σ₂, (s'.checkInputs B f.toNormal).Ends σ (.ok ()) σ₁ ∧
        (s'.checkJudgmentSets B).Ends σ₁ (.ok ()) σ₂ := by
  obtain ⟨_, _, hcheck, hrest⟩ := h.of_bind
  obtain ⟨hvars, rfl⟩ := hcheck.of_ofResult
  obtain ⟨_, σ₁, hinputs, hrest⟩ := hrest.of_bind
  obtain ⟨_, σ₂, hsets, hrest⟩ := hrest.of_bind
  obtain ⟨_, _, _, hpure⟩ := hrest.of_bind
  cases hpure
  exact ⟨hvars, rfl, σ₁, σ₂, hinputs, hsets⟩

/-- An output constraint that is added has passed its checks. -/
theorem addOutput_ok (h : (s.addOutput B f).Ends σ (.ok s') σ') :
    s.checkVariables f.toNormal = .ok () ∧ s' = { s with outputs := s.outputs ++ [f.toNormal] } ∧
      ∃ σ₁, (s'.checkOutputs B f.toNormal).Ends σ (.ok ()) σ₁ := by
  obtain ⟨_, _, hcheck, hrest⟩ := h.of_bind
  obtain ⟨hvars, rfl⟩ := hcheck.of_ofResult
  obtain ⟨_, σ₁, houtputs, hrest⟩ := hrest.of_bind
  obtain ⟨_, _, _, hpure⟩ := hrest.of_bind
  cases hpure
  exact ⟨hvars, rfl, σ₁, houtputs⟩

/-- A group that is added has voters and has passed its check. -/
theorem addJudgmentSet_ok (h : (s.addJudgmentSet B n fs).Ends σ (.ok s') σ') :
    n ≠ 0 ∧ ∃ j, s.accept (fs.map Formula.toNormal) ⟨n, [], []⟩ = .ok j ∧
      s' = { s with profile := s.profile ++ [j] } ∧
      ∃ σ₁, (s.checkJudgmentSet B s.profile.length j).Ends σ (.ok ()) σ₁ := by
  rw [addJudgmentSet] at h
  dsimp only at h
  split at h
  · obtain ⟨_, _, hthrow, _⟩ := h.of_bind
    cases hthrow
  · next hn =>
    split at h
    · cases h
    · next j hj =>
      obtain ⟨_, σ₁, hset, hrest⟩ := h.of_bind
      obtain ⟨_, _, _, hpure⟩ := hrest.of_bind
      cases hpure
      exact ⟨hn, j, hj, rfl, σ₁, hset⟩

/-! ### Well-formed scenarios -/

/-- A formula is **normal over** some variables when it is in negation normal form and has no
others. -/
structure NormalOver (declared : List String) (f : Formula) : Prop where
  isNormal : f.isNormal = true
  vars : ∀ v ∈ f.vars, v ∈ declared

/-- A scenario is **well-formed** when its declared variables are words and its formulas are normal
over them. -/
structure WellFormed (s : Scenario) : Prop where
  declared : ∀ v ∈ s.declared, IsWord v
  agenda : ∀ f ∈ s.agenda.formulas, NormalOver s.declared f
  inputs : ∀ f ∈ s.inputs, NormalOver s.declared f
  outputs : ∀ f ∈ s.outputs, NormalOver s.declared f

theorem NormalOver.mono {vs ws : List String} (hf : NormalOver vs f) (h : ∀ v ∈ vs, v ∈ ws) :
    NormalOver ws f :=
  ⟨hf.isNormal, fun v hv => h v (hf.vars v hv)⟩

/-- A formula that passes the check is a normal one over the declared variables. -/
theorem normalOver_toNormal (h : s.checkVariables f.toNormal = .ok ()) :
    NormalOver s.declared f.toNormal :=
  ⟨Formula.isNormal_normal true f, checkVariables_ok h⟩

theorem forall_mem_concat {P : Formula → Prop} (hfs : ∀ g ∈ fs, P g) (hf : P f) :
    ∀ g ∈ fs ++ [f], P g := by
  intro g hg
  rcases List.mem_append.1 hg with hg | hg
  · exact hfs g hg
  · rw [List.mem_singleton.1 hg]
    exact hf

/-- Every change keeps scenarios well-formed. -/
theorem WellFormed.change (h : s.WellFormed) (hc : (s.change B c).Ends σ (.ok s') σ') :
    s'.WellFormed := by
  cases c with
  | «variable» name =>
    obtain ⟨hname, rfl⟩ := declare_ok hc.of_ofResult.1
    -- More declared variables do no harm to the formulas.
    have hmono {f} (hf : NormalOver s.declared f) :
        NormalOver (SortedList.insert name s.declared) f :=
      hf.mono fun v hv => SortedList.mem_insert.2 (.inr hv)
    refine ⟨?_, fun f hf => hmono (h.agenda f hf), fun f hf => hmono (h.inputs f hf),
      fun f hf => hmono (h.outputs f hf)⟩
    intro v hv
    rcases SortedList.mem_insert.1 hv with rfl | hv
    · exact hname
    · exact h.declared v hv
  | agenda f =>
    obtain ⟨hvars, -, rfl, -⟩ := addToAgenda_ok hc
    refine ⟨h.declared, ?_, h.inputs, h.outputs⟩
    exact forall_mem_concat h.agenda (normalOver_toNormal hvars)
  | input f =>
    obtain ⟨hvars, rfl, -⟩ := addInput_ok hc
    refine ⟨h.declared, h.agenda, ?_, h.outputs⟩
    exact forall_mem_concat h.inputs (normalOver_toNormal hvars)
  | output f =>
    obtain ⟨hvars, rfl, -⟩ := addOutput_ok hc
    refine ⟨h.declared, h.agenda, h.inputs, ?_⟩
    exact forall_mem_concat h.outputs (normalOver_toNormal hvars)
  | judgment n fs =>
    obtain ⟨-, j, -, rfl, -⟩ := addJudgmentSet_ok hc
    exact ⟨h.declared, h.agenda, h.inputs, h.outputs⟩

/-- Reachable scenarios are well-formed. -/
theorem Reachable.wellFormed (h : s.Reachable) : s.WellFormed := by
  induction h with
  | empty => exact ⟨by simp [Scenario.empty], by simp [Scenario.empty], by simp [Scenario.empty],
      by simp [Scenario.empty]⟩
  | change _ _ hc ih => exact ih.change hc

end Scenario

end JudgmentAggregation
