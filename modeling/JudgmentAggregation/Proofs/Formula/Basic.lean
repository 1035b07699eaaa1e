import JudgmentAggregation.Formula.Basic
import Mathlib.Logic.Basic

/-!
# Induction on formulas, truth and variables

Operands come in lists, so the induction principle of `Formula` gives the hypothesis for every
member of a list (`Formula.induction`). The truth value of a formula depends on the values of its
variables only (`Formula.eval_congr`).
-/

namespace JudgmentAggregation

namespace Formula

/-- Induction on formulas: under a conjunction or a disjunction, the statement may be assumed for
every operand. -/
@[induction_eliminator, elab_as_elim]
theorem induction {motive : Formula → Prop} (atom : ∀ v, motive (.atom v))
    (not : ∀ f, motive f → motive (.not f))
    (and : ∀ fs, (∀ f ∈ fs, motive f) → motive (.and fs))
    (or : ∀ fs, (∀ f ∈ fs, motive f) → motive (.or fs))
    (implies : ∀ f g, motive f → motive g → motive (.implies f g)) (f : Formula) : motive f :=
  @Formula.rec motive (fun fs => ∀ f ∈ fs, motive f) atom not and or implies (by simp)
    (fun _ _ hf hfs => List.forall_mem_cons.2 ⟨hf, hfs⟩) f

variable {A B : Valuation String} {v : String} {f g : Formula} {fs : List Formula}

/-! ### Truth -/

@[simp] theorem eval_atom : (atom v).eval A = A v := rfl

@[simp] theorem eval_not : f.not.eval A = !f.eval A := rfl

@[simp] theorem eval_and : (and fs).eval A = fs.all (·.eval A) :=
  evalAll_eq_all A fs

@[simp] theorem eval_or : (or fs).eval A = fs.any (·.eval A) :=
  evalAny_eq_any A fs

@[simp] theorem eval_implies : (f.implies g).eval A = (!f.eval A || g.eval A) := rfl

/-- Some formulas are **satisfiable** when a valuation makes all of them true. -/
def Satisfiable (fs : List Formula) : Prop :=
  ∃ A : Valuation String, ∀ f ∈ fs, f.eval A = true

/-! ### Variables -/

/-- What some formulas add are the variables of all of them, if each adds its own. -/
theorem mem_addVariablesAll
    (h : ∀ f ∈ fs, ∀ s, v ∈ f.addVariables s ↔ v ∈ f.addVariables [] ∨ v ∈ s) (s : List String) :
    v ∈ addVariablesAll fs s ↔ (∃ f ∈ fs, v ∈ f.addVariables []) ∨ v ∈ s := by
  induction fs generalizing s with
  | nil => simp [addVariablesAll]
  | cons f fs ih =>
    rw [addVariablesAll, ih fun g hg => h g (List.mem_cons_of_mem _ hg),
      h f List.mem_cons_self]
    simp only [List.mem_cons, exists_eq_or_imp]
    rw [or_left_comm, ← or_assoc]

/-- What is added to a list are the variables of the formula. -/
theorem mem_addVariables (f : Formula) (s : List String) :
    v ∈ f.addVariables s ↔ v ∈ f.vars ∨ v ∈ s := by
  rw [vars]
  induction f generalizing s with
  | atom w => simp [addVariables, SortedList.mem_insert]
  | not f ih => exact ih s
  | and fs ih | or fs ih =>
    have h (s) := mem_addVariablesAll ih s
    simp only [addVariables, h s, h []]
    simp
  | implies f g hf hg =>
    simp only [addVariables]
    rw [hg, hf, hg (f.addVariables [])]
    exact or_assoc.symm

@[simp] theorem mem_vars_atom {w : String} : v ∈ (atom w).vars ↔ v = w := by
  simp [vars, addVariables, SortedList.insert]

@[simp] theorem mem_vars_not : v ∈ f.not.vars ↔ v ∈ f.vars := Iff.rfl

@[simp] theorem mem_vars_and : v ∈ (and fs).vars ↔ ∃ f ∈ fs, v ∈ f.vars := by
  simpa [vars, addVariables] using mem_addVariablesAll (fun f _ s => mem_addVariables f s) []

@[simp] theorem mem_vars_or : v ∈ (or fs).vars ↔ ∃ f ∈ fs, v ∈ f.vars :=
  mem_vars_and

@[simp] theorem mem_vars_implies : v ∈ (f.implies g).vars ↔ v ∈ f.vars ∨ v ∈ g.vars := by
  rw [vars, addVariables, mem_addVariables, or_comm]
  rfl

theorem sorted_addVariablesAll
    (h : ∀ f ∈ fs, ∀ s, SortedList.Sorted s → SortedList.Sorted (f.addVariables s))
    {s : List String}
    (hs : SortedList.Sorted s) : SortedList.Sorted (addVariablesAll fs s) := by
  induction fs generalizing s with
  | nil => exact hs
  | cons f fs ih =>
    obtain ⟨hf, hfs⟩ := List.forall_mem_cons.1 h
    exact ih hfs (hf s hs)

theorem sorted_addVariables (f : Formula) {s : List String} (hs : SortedList.Sorted s) :
    SortedList.Sorted (f.addVariables s) := by
  induction f generalizing s with
  | atom v => exact SortedList.sorted_insert hs
  | not f ih => exact ih hs
  | and fs ih | or fs ih => exact sorted_addVariablesAll (fun f hf s hs => ih f hf hs) hs
  | implies f g hf hg => exact hg (hf hs)

theorem sorted_vars (f : Formula) : SortedList.Sorted f.vars :=
  f.sorted_addVariables .nil

/-! ### Congruence -/

/-- Formulas that each pass two tests alike all pass them alike. -/
theorem all_congr_mem {p q : Formula → Bool} (h : ∀ f ∈ fs, p f = q f) : fs.all p = fs.all q := by
  rw [Bool.eq_iff_iff, List.all_eq_true, List.all_eq_true]
  exact forall₂_congr fun f hf => by rw [h f hf]

theorem any_congr_mem {p q : Formula → Bool} (h : ∀ f ∈ fs, p f = q f) : fs.any p = fs.any q := by
  rw [Bool.eq_iff_iff, List.any_eq_true, List.any_eq_true]
  exact exists_congr fun f => and_congr_right fun hf => by rw [h f hf]

/-- A formula has the same value under valuations that agree on its variables. -/
theorem eval_congr (h : ∀ v ∈ f.vars, A v = B v) : f.eval A = f.eval B := by
  induction f with
  | atom v => exact h v (by simp)
  | not f ih => rw [eval_not, eval_not, ih h]
  | and fs ih =>
    rw [eval_and, eval_and]
    exact all_congr_mem fun f hf => ih f hf fun v hv => h v (mem_vars_and.2 ⟨f, hf, hv⟩)
  | or fs ih =>
    rw [eval_or, eval_or]
    exact any_congr_mem fun f hf => ih f hf fun v hv => h v (mem_vars_or.2 ⟨f, hf, hv⟩)
  | implies f g hf hg =>
    rw [eval_implies, eval_implies, hf fun v hv => h v (mem_vars_implies.2 (.inl hv)),
      hg fun v hv => h v (mem_vars_implies.2 (.inr hv))]

/-- Formulas that are satisfiable are so with a list of the variables that are true. -/
theorem satisfiable_iff_exists_list :
    Satisfiable fs ↔ ∃ vs : List String, ∀ f ∈ fs, f.eval (fun v => vs.contains v) = true := by
  constructor
  · rintro ⟨A, hA⟩
    refine ⟨(fs.flatMap vars).filter A, fun f hf => ?_⟩
    rw [← hA f hf]
    refine eval_congr fun v hv => ?_
    have hmem : v ∈ fs.flatMap vars := List.mem_flatMap.2 ⟨f, hf, hv⟩
    rw [Bool.eq_iff_iff, List.contains_iff_mem, List.mem_filter, and_iff_right hmem]
  · rintro ⟨vs, hvs⟩
    exact ⟨_, hvs⟩

end Formula

end JudgmentAggregation
