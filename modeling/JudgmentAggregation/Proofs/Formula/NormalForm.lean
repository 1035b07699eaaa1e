import JudgmentAggregation.Formula.NormalForm
import JudgmentAggregation.Proofs.Formula.Basic
import JudgmentAggregation.Proofs.SortedList

/-!
# The meaning and the algebra of normal forms

`Formula.normal` gives a formula in negation normal form (`Formula.isNormal_normal`) that has the
meaning of the given formula or of its negation (`Formula.eval_normal`) and the same variables
(`Formula.mem_vars_normal`). The statements are about both polarities at once, since each needs the
other under a negation and in the premise of an implication.

Normal forms are canonical as trees. A formula in negation normal form is its own normal form
(`Formula.normal_of_isNormal`), and of two polarities pushed into a formula one after the other
there remains their product (`Formula.normal_normal`).
-/

namespace JudgmentAggregation

namespace Formula

variable {A : Valuation String} {v : String} {fs : List Formula}

theorem allNormal_iff : allNormal fs = true ↔ ∀ f ∈ fs, f.isNormal = true := by
  induction fs with
  | nil => simp [allNormal]
  | cons f fs ih => simp [allNormal, ih]

/-- The operands are brought into normal form one by one. -/
theorem normalList_eq_map (b : Bool) (fs : List Formula) :
    normalList b fs = fs.map (normal b) := by
  induction fs with
  | nil => rfl
  | cons f fs ih => rw [normalList, ih, List.map_cons]

@[simp] theorem isNormal_atom : (atom v).isNormal = true := rfl

@[simp] theorem isNormal_and : (and fs).isNormal = true ↔ ∀ f ∈ fs, f.isNormal = true :=
  allNormal_iff

@[simp] theorem isNormal_or : (or fs).isNormal = true ↔ ∀ f ∈ fs, f.isNormal = true :=
  allNormal_iff

@[simp] theorem isNormal_implies {f g : Formula} : (f.implies g).isNormal = false := rfl

/-- A negation in negation normal form is that of an atom. -/
theorem isNormal_not {f : Formula} : f.not.isNormal = true ↔ ∃ v, f = .atom v := by
  cases f <;> simp [isNormal]

/-- The normal form of a negation is that of the operand with the other polarity. -/
theorem normal_not (b : Bool) (f : Formula) : f.not.normal b = f.normal (!b) := by
  cases b <;> rfl

/-- A normal form is normal. -/
theorem isNormal_normal (b : Bool) (f : Formula) : (f.normal b).isNormal = true := by
  induction f generalizing b with
  | atom v => cases b <;> rfl
  | not f ih => rw [normal_not]; exact ih !b
  | and fs ih | or fs ih =>
    cases b <;> simpa [normal, normalList_eq_map] using fun f hf => ih f hf _
  | implies f g hf hg => cases b <;> simp [normal, hf, hg]

/-- The normal form for a polarity is true when the formula has this value. -/
theorem eval_normal (A : Valuation String) (b : Bool) (f : Formula) :
    (f.normal b).eval A = (f.eval A == b) := by
  induction f generalizing b with
  | atom v => cases b <;> simp [normal]
  | not f ih => rw [normal_not, ih]; cases b <;> simp
  | and fs ih =>
    cases b
    · have h := any_congr_mem fun f hf => ih f hf false
      simp [normal, normalList_eq_map, Function.comp_def, h, List.not_all_eq_any_not]
    · have h := all_congr_mem fun f hf => ih f hf true
      simp [normal, normalList_eq_map, Function.comp_def, h]
  | or fs ih =>
    cases b
    · have h := all_congr_mem fun f hf => ih f hf false
      simp [normal, normalList_eq_map, Function.comp_def, h, List.not_any_eq_all_not]
    · have h := any_congr_mem fun f hf => ih f hf true
      simp [normal, normalList_eq_map, Function.comp_def, h]
  | implies f g hf hg => cases b <;> simp [normal, hf, hg]

@[simp] theorem eval_toNormal (A : Valuation String) (f : Formula) :
    f.toNormal.eval A = f.eval A := by
  rw [toNormal, eval_normal, beq_true]

theorem mem_vars_normal (b : Bool) (f : Formula) : v ∈ (f.normal b).vars ↔ v ∈ f.vars := by
  induction f generalizing b with
  | atom w => cases b <;> simp [normal]
  | not f ih => rw [normal_not]; exact ih !b
  | and fs ih | or fs ih =>
    cases b <;>
    · simp only [normal, normalList_eq_map, mem_vars_and, mem_vars_or, List.mem_map,
        exists_exists_and_eq_and]
      exact exists_congr fun f => and_congr_right fun hf => ih f hf _
  | implies f g hf hg => cases b <;> simp [normal, hf, hg]

@[simp] theorem mem_vars_toNormal {f : Formula} : v ∈ f.toNormal.vars ↔ v ∈ f.vars :=
  mem_vars_normal true f

/-- The variables of a normal form are listed as those of the formula are. -/
theorem vars_normal (b : Bool) (f : Formula) : (f.normal b).vars = f.vars :=
  SortedList.eq_of_mem_iff (sorted_vars _) (sorted_vars f) fun _ => mem_vars_normal b f

/-- **The normal forms of a formula and of its negation.** Both are in negation normal form and have
exactly the variables of the formula. Under every valuation the one has the value of the formula and
the other the opposite value. -/
theorem normal_exact (f : Formula) :
    f.toNormal.isNormal = true ∧ f.negateNormal.isNormal = true ∧
      (∀ A, f.toNormal.eval A = f.eval A ∧ f.negateNormal.eval A = !f.eval A) ∧
      f.toNormal.vars = f.vars ∧ f.negateNormal.vars = f.vars := by
  refine ⟨isNormal_normal true f, isNormal_normal false f, fun A => ⟨eval_toNormal A f, ?_⟩,
    vars_normal true f, vars_normal false f⟩
  rw [negateNormal, eval_normal, beq_false]

/-! ### Normal forms of normal forms -/

/-- A formula in negation normal form is its own normal form. -/
theorem normal_of_isNormal {f : Formula} (h : f.isNormal = true) : f.normal true = f := by
  induction f with
  | atom v => rfl
  | not f =>
    obtain ⟨v, rfl⟩ := isNormal_not.1 h
    rfl
  | and fs ih =>
    have hfs : fs.map (normal true) = fs.map id :=
      List.map_congr_left fun f hf => ih f hf (isNormal_and.1 h f hf)
    rw [normal, normalList_eq_map, hfs, List.map_id]
  | or fs ih =>
    have hfs : fs.map (normal true) = fs.map id :=
      List.map_congr_left fun f hf => ih f hf (isNormal_or.1 h f hf)
    rw [normal, normalList_eq_map, hfs, List.map_id]
  | implies f g => simp at h

/-- Of two polarities pushed into a formula, the product remains: it is positive exactly if they are
the same. -/
theorem normal_normal (b b' : Bool) (f : Formula) :
    (f.normal b).normal b' = f.normal (b == b') := by
  induction f generalizing b b' with
  | atom v => cases b <;> cases b' <;> rfl
  | not f ih =>
    rw [normal_not, normal_not, ih]
    cases b <;> cases b' <;> rfl
  | and fs ih | or fs ih =>
    have hfs : normalList b' (normalList b fs) = normalList (b == b') fs := by
      rw [normalList_eq_map, normalList_eq_map, normalList_eq_map, List.map_map]
      exact List.map_congr_left fun f hf => ih f hf b b'
    -- The connective is exchanged by each negative polarity.
    cases b <;> cases b' <;> simp only [normal, hfs] <;> rfl
  | implies f g hf hg => cases b <;> cases b' <;> simp [normal, normalList, hf, hg]

/-- **Normal forms are canonical.** The formulas in negation normal form are those that are their
own normal forms, so that normalizing again changes nothing. Negating twice is the same as
normalizing once, and it makes no difference whether normalizing comes before or after negating, or
not at all. -/
theorem normal_canonical (f : Formula) :
    (f.isNormal = true ↔ f.toNormal = f) ∧
      f.toNormal.toNormal = f.toNormal ∧
      f.negateNormal.negateNormal = f.toNormal ∧
      f.negateNormal.toNormal = f.negateNormal ∧
      f.toNormal.negateNormal = f.negateNormal := by
  refine ⟨⟨normal_of_isNormal, fun h => ?_⟩, normal_normal true true f, normal_normal false false f,
    normal_normal false true f, normal_normal true false f⟩
  rw [← h]
  exact isNormal_normal true f

end Formula

end JudgmentAggregation
