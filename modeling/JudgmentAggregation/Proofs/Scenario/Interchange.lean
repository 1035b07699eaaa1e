import JudgmentAggregation.Proofs.Scenario.Decision

/-!
# Changes in another order

Each change goes through checks of its own, on the scenario as it is then. Still a change is made
exactly if the scenario that it would make is valid (`Scenario.change_of_valid`), and a valid
scenario stays valid when formulas and groups of voters are taken away from it
(`Scenario.Valid.of_part`). So several changes in turn are made exactly if the scenario that has
them all is valid (`Scenario.allMade_iff`): the scenarios on the way are parts of it. Which of the
changes came first makes no difference to that, only to the order in which the constraints and the
groups are listed (`Scenario.attemptAll_perm`).

This is so for changes that declare no variable and accept formulas that are in the agenda from the
start. New formulas of the agenda take the next label, so at most one may be among them.
-/

namespace JudgmentAggregation

/-! ### What changes add -/

namespace Change

/-- The formulas that a change adds to the agenda. -/
def toAgenda : Change → List Formula
  | .agenda f => [f.toNormal]
  | _ => []

/-- The input constraints that a change adds. -/
def toInputs : Change → List Formula
  | .input f => [f.toNormal]
  | _ => []

/-- The output constraints that a change adds. -/
def toOutputs : Change → List Formula
  | .output f => [f.toNormal]
  | _ => []

/-- The groups that a change adds to the profile. -/
def toProfile (s : Scenario) : Change → List JudgmentSet
  | .judgment n fs => [s.group n fs]
  | _ => []

/-- A change stays **within** a scenario when it declares no variable and accepts formulas of the
agenda only. -/
def Within (s : Scenario) : Change → Prop
  | .variable _ => False
  | .judgment _ fs => ∀ f ∈ fs, f.toNormal ∈ s.agenda.formulas
  | .agenda _ | .input _ | .output _ => True

end Change

namespace Scenario

variable {γ : Type} {B : Backend γ} {s s' : Scenario} {c : Change} {cs cs' : List Change}
  {σ σ' : Session γ}

/-- The scenario that a change makes, if it is made. -/
def made (s : Scenario) : Change → Scenario
  | .variable name => { s with declared := SortedList.insert name s.declared }
  | .agenda f => { s with agenda := s.agenda.push f.toNormal }
  | .input f => { s with inputs := s.inputs ++ [f.toNormal] }
  | .output f => { s with outputs := s.outputs ++ [f.toNormal] }
  | .judgment n fs => { s with profile := s.profile ++ [s.group n fs] }

/-- The scenario that some changes make, one after the other, if all of them are made. -/
def madeAll (s : Scenario) (cs : List Change) : Scenario :=
  cs.foldl made s

theorem declared_made (h : c.Within s) : (s.made c).declared = s.declared := by
  cases c with
  | «variable» name => exact h.elim
  | agenda f | input f | output f | judgment n fs => rfl

theorem agenda_made (s : Scenario) (c : Change) :
    (s.made c).agenda.formulas = s.agenda.formulas ++ c.toAgenda := by
  cases c with
  | agenda f => rfl
  | «variable» name | input f | output f | judgment n fs => exact (List.append_nil _).symm

theorem inputs_made (s : Scenario) (c : Change) : (s.made c).inputs = s.inputs ++ c.toInputs := by
  cases c with
  | input f => rfl
  | «variable» name | agenda f | output f | judgment n fs => exact (List.append_nil _).symm

theorem outputs_made (s : Scenario) (c : Change) :
    (s.made c).outputs = s.outputs ++ c.toOutputs := by
  cases c with
  | output f => rfl
  | «variable» name | agenda f | input f | judgment n fs => exact (List.append_nil _).symm

theorem profile_made (s : Scenario) (c : Change) :
    (s.made c).profile = s.profile ++ c.toProfile s := by
  cases c with
  | judgment n fs => rfl
  | «variable» name | agenda f | input f | output f => exact (List.append_nil _).symm

/-! ### Changes within a scenario -/

/-- A change that is within a scenario is so after another change. -/
theorem within_made {c' : Change} (h : c'.Within s) (c : Change) : c'.Within (s.made c) := by
  cases c' with
  | judgment n fs =>
    intro f hf
    rw [agenda_made]
    exact List.mem_append_left _ (h f hf)
  | «variable» name | agenda f | input f | output f => exact h

/-- The labels of the accepted formulas do not change. -/
theorem group_made {n : Nat} {fs : List Formula} (h : ∀ f ∈ fs, f.toNormal ∈ s.agenda.formulas)
    (c : Change) : (s.made c).group n fs = s.group n fs := by
  cases c with
  | agenda g =>
    have hlabels : (fs.map Formula.toNormal).filterMap (s.agenda.push g.toNormal).labelOf? =
        (fs.map Formula.toNormal).filterMap s.agenda.labelOf? := by
      refine List.filterMap_congr fun f hf => Agenda.labelOf?_push ?_
      obtain ⟨g, hg, rfl⟩ := List.mem_map.1 hf
      exact h g hg
    exact congrArg (fun labels => JudgmentSet.mk n _ (SortedList.ofList labels)) hlabels
  | «variable» name | input f | output f | judgment m gs => rfl

theorem toProfile_made {c' : Change} (h : c'.Within s) (c : Change) :
    c'.toProfile (s.made c) = c'.toProfile s := by
  cases c' with
  | judgment n fs => exact congrArg (fun j => [j]) (group_made h c)
  | «variable» name | agenda f | input f | output f => rfl

theorem madeAll_cons (s : Scenario) (c : Change) (cs : List Change) :
    s.madeAll (c :: cs) = (s.made c).madeAll cs :=
  rfl

/-- What several changes add to a list of the scenario is what each of them adds to it. -/
theorem list_madeAll {α : Type} {L : Scenario → List α} {g : Change → List α}
    (h : ∀ s c, L (s.made c) = L s ++ g c) (s : Scenario) (cs : List Change) :
    L (s.madeAll cs) = L s ++ cs.flatMap g := by
  induction cs generalizing s with
  | nil => exact (List.append_nil _).symm
  | cons c cs ih => rw [madeAll_cons, ih, h, List.append_assoc, List.flatMap_cons]

theorem agenda_madeAll (s : Scenario) (cs : List Change) :
    (s.madeAll cs).agenda.formulas = s.agenda.formulas ++ cs.flatMap Change.toAgenda :=
  list_madeAll (L := fun s => s.agenda.formulas) agenda_made s cs

theorem inputs_madeAll (s : Scenario) (cs : List Change) :
    (s.madeAll cs).inputs = s.inputs ++ cs.flatMap Change.toInputs :=
  list_madeAll inputs_made s cs

theorem outputs_madeAll (s : Scenario) (cs : List Change) :
    (s.madeAll cs).outputs = s.outputs ++ cs.flatMap Change.toOutputs :=
  list_madeAll outputs_made s cs

section Within

variable (hcs : ∀ c ∈ cs, c.Within s)

include hcs

/-- Changes within a scenario declare nothing. -/
theorem declared_madeAll : (s.madeAll cs).declared = s.declared := by
  induction cs generalizing s with
  | nil => rfl
  | cons c cs ih =>
    obtain ⟨hc, hcs⟩ := List.forall_mem_cons.1 hcs
    rw [madeAll_cons, ih fun c' hc' => within_made (hcs c' hc') c, declared_made hc]

theorem profile_madeAll :
    (s.madeAll cs).profile = s.profile ++ cs.flatMap (Change.toProfile s) := by
  induction cs generalizing s with
  | nil => exact (List.append_nil _).symm
  | cons c cs ih =>
    have hcs := (List.forall_mem_cons.1 hcs).2
    have hgroups : cs.flatMap (Change.toProfile (s.made c)) = cs.flatMap (Change.toProfile s) :=
      List.flatMap_congr fun c' hc' => toProfile_made (hcs c' hc') c
    rw [madeAll_cons, ih fun c' hc' => within_made (hcs c' hc') c, profile_made, hgroups,
      List.append_assoc, List.flatMap_cons]

end Within

/-! ### Parts of scenarios -/

/-- A scenario is **part** of another one when it has the same variables and some of the formulas
and of the groups. -/
structure Part (s s' : Scenario) : Prop where
  declared : s.declared = s'.declared
  agenda : s.agenda.formulas.Sublist s'.agenda.formulas
  inputs : s.inputs ⊆ s'.inputs
  outputs : s.outputs ⊆ s'.outputs
  profile : s.profile ⊆ s'.profile

/-- Changes make a scenario that the first one is part of. -/
theorem part_madeAll (hcs : ∀ c ∈ cs, c.Within s) : s.Part (s.madeAll cs) where
  declared := (declared_madeAll hcs).symm
  agenda := by
    rw [agenda_madeAll]
    exact List.sublist_append_left ..
  inputs := by
    rw [inputs_madeAll]
    exact List.subset_append_left ..
  outputs := by
    rw [outputs_madeAll]
    exact List.subset_append_left ..
  profile := by
    rw [profile_madeAll hcs]
    exact List.subset_append_left ..

/-- A part of a valid scenario is valid, if its judgment sets are on its agenda. -/
theorem Valid.of_part (hs' : s'.Valid) (h : s.Part s') (hon : ∀ j ∈ s.profile, j.On s.agenda) :
    s.Valid where
  declared := h.declared ▸ hs'.declared
  agenda f hf := h.declared ▸ hs'.agenda f (h.agenda.subset hf)
  inputs f hf := h.declared ▸ hs'.inputs f (h.inputs hf)
  outputs f hf := h.declared ▸ hs'.outputs f (h.outputs hf)
  nodup := hs'.nodup.sublist h.agenda
  satisfiable_inputs := hs'.satisfiable_inputs.imp fun _ hA f hf => hA f (h.inputs hf)
  satisfiable_outputs := hs'.satisfiable_outputs.imp fun _ hA f hf => hA f (h.outputs hf)
  profile j hj := by
    have hholds := hs'.profile j (h.profile hj)
    obtain ⟨A, hA⟩ := hholds.backed
    exact ⟨hholds.multiplicity, hon j hj, A, fun f hf => hA.inputs f (h.inputs hf),
      fun f hf => hA.agenda f (h.agenda.subset hf)⟩

/-- Judgment sets stay on the agenda. -/
theorem on_made (hc : c.Within s) (hon : ∀ j ∈ s.profile, j.On s.agenda) :
    ∀ j ∈ (s.made c).profile, j.On (s.made c).agenda := by
  cases c with
  | «variable» name | input f | output f => exact hon
  | agenda f => exact fun j hj => (hon j hj).push f.toNormal
  | judgment n fs =>
    intro j hj
    rcases List.mem_append.1 hj with hj | hj
    · exact hon j hj
    · rw [List.mem_singleton.1 hj]
      exact group_on hc n

/-- The groups of a valid scenario are on its agenda. -/
theorem Valid.on (hs : s.Valid) : ∀ j ∈ s.profile, j.On s.agenda :=
  fun j hj => (hs.profile j hj).on

/-! ### When changes are made -/

/-- A change that is made makes its scenario. -/
theorem eq_made_of_change (h : (s.change B c).Ends σ (.ok s') σ') : s' = s.made c := by
  cases c with
  | «variable» name => exact (declare_ok h.of_ofResult.1).2
  | agenda f => exact (addToAgenda_ok h).2.2.1
  | input f => exact (addInput_ok h).2.1
  | output f => exact (addOutput_ok h).2.1
  | judgment n fs =>
    obtain ⟨-, j, hj, rfl, -⟩ := addJudgmentSet_ok h
    rw [(accept_ok hj).2]
    rfl

section Complete

variable (hsound : B.Sound) (hcomplete : B.Complete)

include hsound hcomplete

/-- A change of a valid scenario is made if the scenario that it makes is valid. -/
theorem change_of_valid (hs : s.Valid) (h : (s.made c).Valid) (σ : Session γ) :
    ∃ σ', (s.change B c).Ends σ (.ok (s.made c)) σ' := by
  have hw := hs.toWellFormed
  -- The formulas and the groups that are new are the last ones of their lists.
  have hlast {α : Type} (as : List α) (a : α) : a ∈ as ++ [a] :=
    List.mem_append_right _ (List.mem_singleton_self a)
  cases c with
  | «variable» name =>
    have hname : IsWord name := h.declared name (SortedList.mem_insert.2 (.inl rfl))
    exact ⟨σ, Run.ends_ok (declare_eq_ok hname) σ⟩
  | agenda f =>
    have hf : f.toNormal ∉ s.agenda.formulas := fun hf =>
      (List.nodup_append.1 h.nodup).2.2 _ hf _ (List.mem_singleton_self _) rfl
    exact addToAgenda_ends hw (h.agenda _ (hlast _ _)).vars hsound hcomplete hf
      hs.satisfiable_inputs hs.satisfiable_outputs
      (fun j hj => (consistent_iff h.nodup (h.profile j hj).on).2 (h.profile j hj).backed) σ
  | input f =>
    exact addInput_ends hw (h.inputs _ (hlast _ _)).vars hsound hcomplete h.satisfiable_inputs
      (fun j hj => (consistent_iff h.nodup (h.profile j hj).on).2 (h.profile j hj).backed) σ
  | output f =>
    exact addOutput_ends hw (h.outputs _ (hlast _ _)).vars hsound hcomplete h.satisfiable_outputs σ
  | judgment n fs =>
    have hgroup := h.profile (s.group n fs) (hlast _ _)
    have hfs : ∀ f ∈ fs, f.toNormal ∈ s.agenda.formulas := fun f hf =>
      hgroup.on.mem_formulas (SortedList.mem_ofList.2 (List.mem_map_of_mem hf))
    obtain ⟨A, hA⟩ := hgroup.backed
    exact addJudgmentSet_ends hw hsound hcomplete (Nat.pos_iff_ne_zero.1 hgroup.multiplicity) fs
      (accept_eq_group hfs n) ((consistent_iff hs.nodup hgroup.on).2 ⟨A, hA.inputs, hA.agenda⟩) σ

end Complete

/-- The answers say that all the changes were made. -/
def AllMade (answers : List (Result (Option Nat))) : Prop :=
  ∀ a ∈ answers, a.isOk = true

instance (answers : List (Result (Option Nat))) : Decidable (AllMade answers) :=
  inferInstanceAs (Decidable (∀ a ∈ answers, a.isOk = true))

theorem run_attemptAll_cons {a : Result (Option Nat)} (h : (s.attempt B c).run σ = ((a, s'), σ'))
    (cs : List Change) :
    ((attemptAll B (c :: cs) s).run σ).1 =
      (a :: ((attemptAll B cs s').run σ').1.1, ((attemptAll B cs s').run σ').1.2) := by
  rw [attemptAll, StateT.run_bind, h]
  rfl

/-- Changes that are all made make their scenario, which is valid. -/
theorem attemptAll_of_allMade (hsound : B.Sound) (hs : s.Valid)
    (h : AllMade ((attemptAll B cs s).run σ).1.1) :
    ((attemptAll B cs s).run σ).1.2 = s.madeAll cs ∧ (s.madeAll cs).Valid := by
  induction cs generalizing s σ with
  | nil => exact ⟨rfl, hs⟩
  | cons c cs ih =>
    rcases hc : (s.change B c).run.run σ with ⟨r, σ'⟩
    cases r with
    | error e =>
      rw [run_attemptAll_cons (run_attempt_error hc)] at h
      exact absurd (h _ List.mem_cons_self) Bool.false_ne_true
    | ok s' =>
      obtain rfl := eq_made_of_change hc
      rw [run_attemptAll_cons (run_attempt_ok hc)] at h ⊢
      exact ih (hs.change hsound hc) fun a ha => h a (List.mem_cons_of_mem _ ha)

section Complete

variable (hsound : B.Sound) (hcomplete : B.Complete)

include hsound hcomplete

/-- Changes within a valid scenario are all made if the scenario that has them all is valid: those
on the way are parts of it. -/
theorem allMade_of_valid (hs : s.Valid) (hcs : ∀ c ∈ cs, c.Within s) (h : (s.madeAll cs).Valid)
    (σ : Session γ) : AllMade ((attemptAll B cs s).run σ).1.1 := by
  induction cs generalizing s σ with
  | nil => exact List.forall_mem_nil _
  | cons c cs ih =>
    obtain ⟨hc, hcs⟩ := List.forall_mem_cons.1 hcs
    have hcs := fun c' hc' => within_made (hcs c' hc') c
    have hmade : (s.made c).Valid := h.of_part (part_madeAll hcs) (on_made hc hs.on)
    obtain ⟨σ', hends⟩ := change_of_valid hsound hcomplete hs hmade σ
    rw [run_attemptAll_cons (run_attempt_ok hends)]
    exact List.forall_mem_cons.2 ⟨rfl, ih hmade hcs h σ'⟩

/-- Changes within a valid scenario are all made exactly if the scenario that has them all is
valid. -/
theorem allMade_iff (hs : s.Valid) (hcs : ∀ c ∈ cs, c.Within s) (σ : Session γ) :
    AllMade ((attemptAll B cs s).run σ).1.1 ↔ (s.madeAll cs).Valid :=
  ⟨fun h => (attemptAll_of_allMade hsound hs h).2,
    fun h => allMade_of_valid hsound hcomplete hs hcs h σ⟩

end Complete

/-! ### Changes in another order -/

/-- A scenario is **reordered** when its constraints and its groups are listed in another order. The
variables and the agenda are the same. -/
structure Reordered (s s' : Scenario) : Prop where
  declared : s.declared = s'.declared
  agenda : s.agenda = s'.agenda
  inputs : s.inputs.Perm s'.inputs
  outputs : s.outputs.Perm s'.outputs
  profile : s.profile.Perm s'.profile

/-- A reordered scenario is a part of the other one. -/
theorem Reordered.part (h : s.Reordered s') : s.Part s' where
  declared := h.declared
  agenda := h.agenda ▸ .refl _
  inputs := h.inputs.subset
  outputs := h.outputs.subset
  profile := h.profile.subset

theorem Reordered.symm (h : s.Reordered s') : s'.Reordered s :=
  ⟨h.declared.symm, h.agenda.symm, h.inputs.symm, h.outputs.symm, h.profile.symm⟩

/-- A reordered scenario is as valid as the other one. -/
theorem Reordered.valid (h : s.Reordered s') (hs : s.Valid) : s'.Valid :=
  hs.of_part h.symm.part fun j hj => h.agenda ▸ hs.on j (h.profile.mem_iff.2 hj)

/-- Changes in another order make a reordered scenario. -/
theorem reordered_madeAll (hcs : ∀ c ∈ cs, c.Within s)
    (hagenda : (cs.flatMap Change.toAgenda).length ≤ 1) (hperm : cs.Perm cs') :
    (s.madeAll cs).Reordered (s.madeAll cs') where
  declared := by
    rw [declared_madeAll hcs, declared_madeAll fun c hc => hcs c (hperm.mem_iff.2 hc)]
  agenda := by
    have hformulas := hperm.flatMap_right Change.toAgenda
    -- A list of at most one formula has one order only.
    have heq : cs.flatMap Change.toAgenda = cs'.flatMap Change.toAgenda := by
      rcases hfs : cs.flatMap Change.toAgenda with _ | ⟨f, _ | ⟨g, fs⟩⟩
      · rw [hfs] at hformulas
        exact hformulas.nil_eq
      · rw [hfs] at hformulas
        exact hformulas.singleton_eq
      · rw [hfs] at hagenda
        simp at hagenda
    have hmade := agenda_madeAll s cs
    rw [heq, ← agenda_madeAll] at hmade
    exact congrArg Agenda.mk hmade
  inputs := by
    rw [inputs_madeAll, inputs_madeAll]
    exact (hperm.flatMap_right _).append_left _
  outputs := by
    rw [outputs_madeAll, outputs_madeAll]
    exact (hperm.flatMap_right _).append_left _
  profile := by
    rw [profile_madeAll hcs, profile_madeAll fun c hc => hcs c (hperm.mem_iff.2 hc)]
    exact (hperm.flatMap_right _).append_left _

section Complete

variable (hs : s.Reachable) (hsound : B.Sound) (hcomplete : B.Complete)

include hs hsound hcomplete

/-- **The order of changes does not matter.** Changes within a reachable scenario, of which at most
one is to the agenda, are all made in one order exactly if they are in another one, and then they
make the same scenario up to the order in which it lists things. -/
theorem attemptAll_perm (hcs : ∀ c ∈ cs, c.Within s)
    (hagenda : (cs.flatMap Change.toAgenda).length ≤ 1) (hperm : cs.Perm cs') (σ τ : Session γ) :
    let run := ((attemptAll B cs s).run σ).1
    let run' := ((attemptAll B cs' s).run τ).1
    (AllMade run.1 ↔ AllMade run'.1) ∧ (AllMade run.1 → run.2.Reordered run'.2) := by
  intro run run'
  have hreordered := reordered_madeAll hcs hagenda hperm
  have hiff : AllMade run.1 ↔ AllMade run'.1 := by
    rw [allMade_iff hsound hcomplete hs.valid hcs,
      allMade_iff hsound hcomplete hs.valid fun c hc => hcs c (hperm.mem_iff.2 hc)]
    exact ⟨hreordered.valid, hreordered.symm.valid⟩
  refine ⟨hiff, fun h => ?_⟩
  rw [(attemptAll_of_allMade hsound hs.valid h).1,
    (attemptAll_of_allMade hsound hs.valid (hiff.1 h)).1]
  exact hreordered

/-- **Changes commute.** Two changes within a reachable scenario that are not both to the agenda are
both made in one order exactly if they are both made in the other. Then the scenarios have the same
variables and the same agenda, and up to order the same constraints and the same groups of
voters. -/
theorem attemptAll_comm {c₁ c₂ : Change} (h₁ : c₁.Within s) (h₂ : c₂.Within s)
    (hagenda : ∀ f g, ¬ (c₁ = .agenda f ∧ c₂ = .agenda g)) (σ τ : Session γ) :
    let run := ((attemptAll B [c₁, c₂] s).run σ).1
    let run' := ((attemptAll B [c₂, c₁] s).run τ).1
    (AllMade run.1 ↔ AllMade run'.1) ∧ (AllMade run.1 → run.2.Reordered run'.2) := by
  refine attemptAll_perm hs hsound hcomplete ?_ ?_ (.swap c₂ c₁ []) σ τ
  · exact List.forall_mem_cons.2 ⟨h₁, List.forall_mem_singleton.2 h₂⟩
  · cases c₁ <;> cases c₂ <;> simp [Change.toAgenda] at hagenda ⊢

end Complete

/-- The voters accept `a`, which commits them to `b`. A group that rejects `a` and a new formula
that is false with `b` can both be added. A group that rejects `a` is shut out by the input
constraint `a`: it is not let in after it, and keeps it out when it comes before. -/
theorem attemptAll_comm_committed :
    let reject : Change := .judgment 1 []
    let deny : Change := .agenda (.not (.atom "b"))
    let require : Change := .input (.atom "a")
    let run cs := ((attemptAll Backend.exhaustive cs committed).run (.start ())).1
    committed.Reachable ∧ reject.Within committed ∧ deny.Within committed ∧
      require.Within committed ∧
      (AllMade (run [reject, deny]).1 ∧ AllMade (run [deny, reject]).1 ∧
        (run [reject, deny]).2.Reordered (run [deny, reject]).2) ∧
      ¬ AllMade (run [reject, require]).1 ∧ ¬ AllMade (run [require, reject]).1 := by
  intro reject deny require run
  have hreject : reject.Within committed := List.forall_mem_nil _
  have hdeny : deny.Within committed := trivial
  have hrequire : require.Within committed := trivial
  have hcomm := attemptAll_comm committed_reachable Backend.exhaustive_sound
    Backend.exhaustive_complete hreject hdeny (by simp [reject]) (.start ()) (.start ())
  have hcomm' := attemptAll_comm committed_reachable Backend.exhaustive_sound
    Backend.exhaustive_complete hreject hrequire (by simp [reject]) (.start ()) (.start ())
  have hmade : AllMade (run [reject, deny]).1 := by decide +kernel
  have hrefused : ¬ AllMade (run [reject, require]).1 := by decide +kernel
  exact ⟨committed_reachable, hreject, hdeny, hrequire,
    ⟨hmade, hcomm.1.1 hmade, hcomm.2 hmade⟩, hrefused, hcomm'.1.not.1 hrefused⟩

end Scenario

end JudgmentAggregation
