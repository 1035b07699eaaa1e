import JudgmentAggregation.Proofs.Scenario.Check

/-!
# The invariants of scenarios

A scenario is **valid** when its formulas are in negation normal form over declared variables, the
agenda has no formula twice, both kinds of constraints are satisfiable, and every judgment set has
voters and a valuation that backs it. Every change that is made keeps scenarios valid
(`Scenario.Valid.change`); the checks before it see to what a new formula could break, also for the
judgment sets that are there already. So a scenario is valid after any attempts at changing it
(`Scenario.valid_attemptAll`), whether or not they succeed.
-/

namespace JudgmentAggregation

namespace Scenario

variable {γ : Type} {B : Backend γ} {c : Change} {f : Formula} {s s' : Scenario} {j : JudgmentSet}
  {A : Valuation String} {σ σ' : Session γ}

/-- A judgment set is **held** in a scenario when it has voters, is on the agenda and is backed by
some valuation. -/
structure Holds (s : Scenario) (j : JudgmentSet) : Prop where
  multiplicity : 0 < j.multiplicity
  on : j.On s.agenda
  backed : ∃ A, s.Backs j A

/-- A scenario is **valid** when it satisfies its invariants. -/
structure Valid (s : Scenario) : Prop extends WellFormed s where
  nodup : s.agenda.formulas.Nodup
  satisfiable_inputs : Formula.Satisfiable s.inputs
  satisfiable_outputs : Formula.Satisfiable s.outputs
  profile : ∀ j ∈ s.profile, s.Holds j

theorem valid_empty : Valid empty where
  declared := nofun
  agenda := nofun
  inputs := nofun
  outputs := nofun
  nodup := .nil
  satisfiable_inputs := ⟨fun _ => true, nofun⟩
  satisfiable_outputs := ⟨fun _ => true, nofun⟩
  profile := nofun

/-! ### Judgment sets in changed scenarios -/

/-- What is held does not depend on the declared variables, the output constraints and the profile.
-/
theorem Holds.congr (h : s.Holds j) (hagenda : s'.agenda = s.agenda)
    (hinputs : s'.inputs = s.inputs) : s'.Holds j := by
  obtain ⟨A, hA⟩ := h.backed
  exact ⟨h.multiplicity, hagenda ▸ h.on, A, hinputs ▸ hA.inputs, hagenda ▸ hA.agenda⟩

theorem Holds.of_consistent (hnodup : s.agenda.formulas.Nodup) (hmultiplicity : 0 < j.multiplicity)
    (hon : j.On s.agenda) (hj : s.Consistent j) : s.Holds j :=
  ⟨hmultiplicity, hon, (consistent_iff hnodup hon).1 hj⟩

/-- A judgment set rejects a formula that is new to the agenda. -/
theorem backs_push_iff (hj : j.On s.agenda) (hf : f ∉ s.agenda.formulas) :
    Backs { s with agenda := s.agenda.push f } j A ↔ s.Backs j A ∧ f.eval A = false := by
  have hrejects : f ∉ j.accepted := fun h => hf (hj.mem_formulas h)
  constructor
  · rintro ⟨hinputs, hagenda⟩
    obtain ⟨hagenda, hnew⟩ := List.forall_mem_append.1 hagenda
    exact ⟨⟨hinputs, hagenda⟩, by simpa [hrejects] using hnew⟩
  · rintro ⟨⟨hinputs, hagenda⟩, hnew⟩
    exact ⟨hinputs, List.forall_mem_append.2 ⟨hagenda, by simp [hrejects, hnew]⟩⟩

/-- A valuation backs a group with a new input constraint exactly if it also satisfies it. -/
theorem backs_input_iff :
    Backs { s with inputs := s.inputs ++ [f] } j A ↔ s.Backs j A ∧ f.eval A = true := by
  constructor
  · rintro ⟨hinputs, hagenda⟩
    obtain ⟨hinputs, hnew⟩ := List.forall_mem_append.1 hinputs
    exact ⟨⟨hinputs, hagenda⟩, hnew f List.mem_cons_self⟩
  · rintro ⟨⟨hinputs, hagenda⟩, hnew⟩
    exact ⟨List.forall_mem_append.2 ⟨hinputs, by simpa using hnew⟩, hagenda⟩

/-! ### One change -/

/-- Every change keeps scenarios valid. -/
theorem Valid.change (hsound : B.Sound) (h : s.Valid)
    (hc : (s.change B c).Ends σ (.ok s') σ') : s'.Valid := by
  have hwell := h.toWellFormed.change hc
  cases c with
  | «variable» name =>
    obtain ⟨-, rfl⟩ := declare_ok hc.of_ofResult.1
    exact ⟨hwell, h.nodup, h.satisfiable_inputs, h.satisfiable_outputs,
      fun j hj => (h.profile j hj).congr rfl rfl⟩
  | agenda f =>
    obtain ⟨-, hnew, rfl, σ₁, σ₂, σ₃, -, -, hsets⟩ := addToAgenda_ok hc
    have hnodup := Agenda.nodup_push h.nodup (Agenda.labelOf?_eq_none.1 hnew)
    exact ⟨hwell, hnodup, h.satisfiable_inputs, h.satisfiable_outputs, fun j hj =>
      .of_consistent hnodup (h.profile j hj).multiplicity ((h.profile j hj).on.push _)
        (checkJudgmentSetsFrom_ok hsound hwell hsets j hj)⟩
  | input f =>
    obtain ⟨-, rfl, σ₁, σ₂, hinputs, hsets⟩ := addInput_ok hc
    exact ⟨hwell, h.nodup, checkConstraints_ok hsound hwell hwell.inputs hinputs,
      h.satisfiable_outputs, fun j hj =>
      .of_consistent h.nodup (h.profile j hj).multiplicity (h.profile j hj).on
        (checkJudgmentSetsFrom_ok hsound hwell hsets j hj)⟩
  | output f =>
    obtain ⟨-, rfl, σ₁, houtputs⟩ := addOutput_ok hc
    exact ⟨hwell, h.nodup, h.satisfiable_inputs,
      checkConstraints_ok hsound hwell hwell.outputs houtputs,
      fun j hj => (h.profile j hj).congr rfl rfl⟩
  | judgment n fs =>
    obtain ⟨hn, j, haccept, rfl, σ₁, hset⟩ := addJudgmentSet_ok hc
    obtain ⟨hfs, rfl⟩ := accept_ok haccept
    -- What holds of a group depends on the agenda and the inputs, so it still holds of the others.
    have hnew : s.Holds (s.group n fs) := .of_consistent h.nodup (Nat.pos_of_ne_zero hn)
      (group_on hfs n) (checkJudgmentSet_ok hsound h.toWellFormed hset)
    refine ⟨hwell, h.nodup, h.satisfiable_inputs, h.satisfiable_outputs, fun j hj => ?_⟩
    rcases List.mem_append.1 hj with hj | hj
    · exact (h.profile j hj).congr rfl rfl
    · rw [List.mem_singleton.1 hj]
      exact hnew.congr rfl rfl

/-- Reachable scenarios are valid. -/
theorem Reachable.valid (h : s.Reachable) : s.Valid := by
  induction h with
  | empty => exact valid_empty
  | change _ hB hc ih => exact ih.change hB hc

/-! ### Attempts at changes -/

/-- An attempt that succeeds answers with the label, if there is one. -/
theorem run_attempt_ok (h : (s.change B c).Ends σ (.ok s') σ') :
    (s.attempt B c).run σ = ((.ok (c.label? s'), s'), σ') := by
  rw [Run.Ends] at h
  rw [attempt, StateT.run_bind, h]
  rfl

/-- An attempt that fails leaves the scenario as it is. -/
theorem run_attempt_error {e : Error} (h : (s.change B c).Ends σ (.error e) σ') :
    (s.attempt B c).run σ = ((.error e, s), σ') := by
  rw [Run.Ends] at h
  rw [attempt, StateT.run_bind, h]
  rfl

/-- An attempt keeps scenarios valid, since it makes a change or nothing. -/
theorem Valid.attempt (hsound : B.Sound) (h : s.Valid) (c : Change) (σ : Session γ) :
    ((s.attempt B c).run σ).1.2.Valid := by
  rcases hc : (s.change B c).run.run σ with ⟨r, σ'⟩
  cases r with
  | ok s' =>
    rw [run_attempt_ok hc]
    exact h.change hsound hc
  | error e =>
    rw [run_attempt_error hc]
    exact h

/-- Attempts at some changes, one after the other. -/
def attemptAll (B : Backend γ) : List Change → Scenario →
    StateM (Session γ) (List (Result (Option Nat)) × Scenario)
  | [], s => return ([], s)
  | c :: cs, s => do
    let (answer, s) ← s.attempt B c
    let (answers, s) ← attemptAll B cs s
    return (answer :: answers, s)

/-- A valid scenario stays valid under any attempts. -/
theorem Valid.attemptAll (hsound : B.Sound) (h : s.Valid) (cs : List Change) (σ : Session γ) :
    ((attemptAll B cs s).run σ).1.2.Valid := by
  induction cs generalizing s σ with
  | nil => exact h
  | cons c cs ih => exact ih (h.attempt hsound c σ) _

/-- **The invariants hold after any attempts at changes**, made with a sound backend, which may give
up at any call. -/
theorem valid_attemptAll (hsound : B.Sound) (cs : List Change) (σ : Session γ) :
    ((Scenario.attemptAll B cs empty).run σ).1.2.Valid :=
  valid_empty.attemptAll hsound cs σ

/-- Two voters accept `a`, which commits them to `b`. -/
def committed : Scenario :=
  ⟨["a", "b"], ⟨[.atom "a"]⟩, [.or [.not (.atom "a"), .atom "b"]], [], [⟨2, [.atom "a"], [1]⟩]⟩

theorem committed_reachable : committed.Reachable :=
  Reachable.empty.build [.variable "a", .variable "b", .agenda (.atom "a"),
    .input (.implies (.atom "a") (.atom "b")), .judgment 2 [.atom "a"]] (by decide +kernel)

/-- Changes of which the second, the sixth, the eighth and the ninth would break an invariant. -/
def troubled : List Change :=
  [.variable "a", .variable "a b", .variable "b", .agenda (.atom "a"),
    .input (.implies (.atom "a") (.atom "b")), .judgment 0 [.atom "a"], .judgment 2 [.atom "a"],
    .agenda (.atom "a"), .input (.not (.atom "a")), .output (.atom "b")]

/-- The backend gives up when it is asked about the last change. -/
theorem valid_attemptAll_troubled :
    (Backend.exhaustive.givingUpFrom 6).Sound ∧
      ((Scenario.attemptAll (Backend.exhaustive.givingUpFrom 6) troubled empty).run
        (.start ((), 0))).1.2 = committed ∧
      committed.Valid := by
  have hsound := Backend.exhaustive_sound.givingUpFrom 6
  have hmade : ((Scenario.attemptAll (Backend.exhaustive.givingUpFrom 6) troubled empty).run
      (.start ((), 0))).1.2 = committed := by decide +kernel
  exact ⟨hsound, hmade, hmade ▸ valid_attemptAll hsound troubled (.start ((), 0))⟩

end Scenario

end JudgmentAggregation
