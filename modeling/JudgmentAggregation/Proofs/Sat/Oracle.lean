import JudgmentAggregation.Proofs.Outcome.Admissible
import JudgmentAggregation.Sat.Oracle

/-!
# The satisfiability check is exact

The solver that is asked whether some formulas are satisfiable together holds the clauses of their
normal forms, converted one after the other (`Oracle.load_eq`). These have a model exactly if the
formulas have one, so that the answer is right (`Oracle.satisfiable_ends`). The atoms of the
formulas must not be auxiliary variables, while the variables given do not matter.
-/

namespace JudgmentAggregation

/-- The variables asked for make no difference to the clauses of a conversion. -/
theorem Converter.convert_eq_ok {c c' : Converter} {f : Formula} {vs ws : List String}
    {F : Cnf String} (h : c.convert f vs = .ok (F, ws, c')) (vars : List String) :
    ∃ ws', c.convert f vars = .ok (F, ws', c') := by
  rw [convert] at h ⊢
  split at h
  · next hnormal =>
    rw [if_pos hnormal]
    cases hs : Conversion.conjuncts f ⟨c, [], []⟩ with
    | error e =>
      rw [hs] at h
      cases h
    | ok s =>
      rw [hs] at h
      cases h
      exact ⟨_, rfl⟩
  · cases h

/-- CNF formulas are numbered one after the other. -/
theorem VariableIndex.cnf_append (i : VariableIndex) (F G : Cnf String) :
    (i.cnf (F ++ G)).1 = (i.cnf F).1 ++ ((i.cnf F).2.cnf G).1 := by
  induction F generalizing i with
  | nil => rfl
  | cons c F ih =>
    show (i.clause c).1 :: ((i.clause c).2.cnf (F ++ G)).1 = _
    rw [ih]
    rfl

theorem Solver.addAll_append (s : Solver) (F G : Cnf Nat) :
    s.addAll (F ++ G) = (s.addAll F).addAll G := by
  rw [addAll, addAll, addAll, List.foldl_append]

namespace Oracle

open Converter VariableIndex

variable {γ : Type} {B : Backend γ} {c : Converter} {fs : List Formula}

/-- What is loaded are the clauses of the normal forms of the formulas. -/
theorem load_eq {vs : List String} {F : Cnf String}
    (h : Scenario.convertAll c vs (fs.map Formula.toNormal) = .ok F) (vars : List String)
    (i : VariableIndex) (s : Solver) : load vars fs c i s = .ok (s.addAll (i.cnf F).1) := by
  induction fs generalizing c vs F i s with
  | nil =>
    cases h
    rfl
  | cons f fs ih =>
    rw [List.map_cons, Scenario.convertAll] at h
    split at h
    · cases h
    · next F₁ ws c₁ hf =>
      split at h
      · cases h
      · next G hfs =>
        cases h
        obtain ⟨ws', hf'⟩ := convert_eq_ok hf vars
        rw [load, hf']
        dsimp only
        rw [ih hfs, cnf_append, Solver.addAll_append]

/-- Any formulas can be loaded. -/
theorem exists_load (h : c.Orderly) (fs : List Formula) (vars : List String) (i : VariableIndex)
    (s : Solver) : ∃ s', load vars fs c i s = .ok s' := by
  induction fs generalizing c i s with
  | nil => exact ⟨s, rfl⟩
  | cons f fs ih =>
    have hnormal : f.toNormal.isNormal = true := Formula.isNormal_normal true f
    obtain ⟨tops, t, ht, hstep, -⟩ := Conversion.conjuncts_spec (P := fun _ => True)
      (s := ⟨c, [], []⟩) (fun _ _ _ _ => trivial) h trivial hnormal
    have hconvert : c.convert f.toNormal vars =
        .ok (t.clauses.reverse, SortedList.insertAll t.defined vars, t.converter) := by
      rw [convert, if_pos hnormal, ht]
      rfl
    obtain ⟨s', hs'⟩ := ih hstep.orderly _ (s.addAll (i.cnf t.clauses.reverse).1)
    refine ⟨s', ?_⟩
    rw [load, hconvert]
    exact hs'

/-- A solver is loaded, and its clauses have a model exactly if the formulas have one. -/
theorem load_spec (hplain : ∀ f ∈ fs, Plain "_aux" f) (vars : List String) :
    ∃ s, load vars fs .standard (empty.insertAll vars).2 .empty = .ok s ∧
      ∀ found, Query.Settled ⟨s.clauses, []⟩ found →
        (found.isSome = true ↔ ∃ A : Valuation String, ∀ f ∈ fs, f.eval A = true) := by
  have hnormal : ∀ f ∈ fs.map Formula.toNormal, f.isNormal = true ∧ Plain "_aux" f := by
    intro f hf
    obtain ⟨g, hg, rfl⟩ := List.mem_map.1 hf
    exact ⟨Formula.isNormal_normal true g, fun v hv =>
      hplain g hg v (Formula.mem_vars_toNormal.1 hv)⟩
  have heval (A) : (∀ f ∈ fs.map Formula.toNormal, f.eval A = true) ↔
      ∀ f ∈ fs, f.eval A = true := by
    rw [List.forall_mem_map]
    refine forall₂_congr fun f _ => ?_
    rw [Formula.eval_toNormal]
  obtain ⟨F, c, hF, -, ho, hmeans⟩ := Scenario.convertAll_spec (orderly_ofNamespace "aux")
    (fun f hf => (hnormal f hf).1) (fun f hf => (hnormal f hf).2) []
  have hmodel : (∃ A, F.eval A = true) ↔ ∃ A : Valuation String, ∀ f ∈ fs, f.eval A = true := by
    constructor
    · rintro ⟨A, hA⟩
      exact ⟨A, (heval A).1 ((hmeans c (.refl c) ho A).2 hA)⟩
    · rintro ⟨A, hA⟩
      exact ⟨_, (hmeans c (.refl c) ho A).1 ((heval A).2 hA)⟩
  have hstore := Store.means_cnf F (numbers_insertAll.orderly vars _ orderly_empty)
  refine ⟨_, load_eq hF vars _ _, fun found hsettled => ?_⟩
  rw [← hmodel]
  cases found with
  | some m =>
    have hm := (Bool.and_eq_true_iff.1 hsettled).1
    have hA := agrees_named ((empty.insertAll vars).2.cnf F).2 m.valuation
    exact ⟨fun _ => ⟨_, hstore.of_holds hA hm⟩, fun _ => rfl⟩
  | none =>
    refine ⟨fun h => absurd h Bool.false_ne_true, fun ⟨A, hA⟩ => ?_⟩
    obtain ⟨N, -, hN⟩ := (hstore.iff A).2 hA
    have hfalse := hsettled N
    rw [Query.eval, Bool.and_eq_false_iff] at hfalse
    -- There are no assumptions, so it is the clauses that are false.
    rcases hfalse with hfalse | hfalse
    · exact absurd hN (ne_true_of_eq_false hfalse)
    · cases hfalse

/-- The check ends, and says that the formulas are satisfiable exactly if they are. -/
theorem satisfiable_ends (hsound : B.Sound) (hcomplete : B.Complete)
    (hplain : ∀ f ∈ fs, Plain "_aux" f) (vars : List String) (σ : Session γ) :
    ∃ b σ', (satisfiable B fs vars).Ends σ (.ok b) σ' ∧
      (b = true ↔ ∃ A : Valuation String, ∀ f ∈ fs, f.eval A = true) := by
  obtain ⟨s, hload, hs⟩ := load_spec hplain vars
  obtain ⟨answer, s', σ', found, hrun, -, hfound, hsettled⟩ :=
    Solver.solve_spec hsound hcomplete [] s σ
  refine ⟨found.isSome, σ', ?_, hs found hsettled⟩
  exact (Run.ends_ok hload σ).bind ((Run.ends_lift hrun).bind
    (((Run.ends_ok hfound σ').inContext_ok _).bind (Run.ends_pure _ σ')))

/-- What the check says depends on the formulas and on the variables given only. -/
theorem satisfiable_certain (fs : List Formula) (vars : List String) :
    ∃ b, ∀ {γ : Type} {B : Backend γ}, B.Sound → B.Complete → ∀ σ, ∃ σ',
      (satisfiable B fs vars).Ends σ (.ok b) σ' := by
  classical
  obtain ⟨s, hs⟩ := exists_load (orderly_ofNamespace "aux") fs vars (empty.insertAll vars).2 .empty
  refine ⟨decide (∃ N, Query.eval N ⟨s.clauses, []⟩ = true), fun hsound hcomplete σ => ?_⟩
  obtain ⟨answer, s', σ', found, hrun, -, hfound, hsettled⟩ :=
    Solver.solve_spec hsound hcomplete [] s σ
  have hends : (satisfiable _ fs vars).Ends σ (.ok found.isSome) σ' :=
    (Run.ends_ok hs σ).bind ((Run.ends_lift hrun).bind
      (((Run.ends_ok hfound σ').inContext_ok _).bind (Run.ends_pure _ σ')))
  refine ⟨σ', ?_⟩
  -- A model that is found satisfies the clauses, and if there is none, nothing does.
  rcases found with _ | m
  · rwa [decide_eq_false fun ⟨N, hN⟩ => by rw [hsettled N] at hN; cases hN]
  · rwa [decide_eq_true ⟨_, hsettled⟩]

/-- Even if the backend may give up, what the check says is right. -/
theorem satisfiable_of_ends (hsound : B.Sound) (hplain : ∀ f ∈ fs, Plain "_aux" f)
    {vars : List String} {σ σ' : Session γ} {b : Bool}
    (h : (satisfiable B fs vars).Ends σ (.ok b) σ') :
    b = true ↔ ∃ A : Valuation String, ∀ f ∈ fs, f.eval A = true := by
  obtain ⟨s, hload, hs⟩ := load_spec hplain vars
  obtain ⟨s', _, hends, hrest⟩ := h.of_bind
  obtain ⟨hload', rfl⟩ := hends.of_ofResult
  cases hload.symm.trans hload'
  obtain ⟨⟨answer, _⟩, σ₁, hsolve, hrest⟩ := hrest.of_bind
  obtain ⟨found, σ₂, hfound, hpure⟩ := hrest.of_bind
  cases hpure
  exact hs found (Solver.settled_of_solve hsound hsolve.of_lift hfound.of_inContext.of_ofResult.1)

/-- **The check decides conjunctions.** Of formulas without auxiliary variables it says that they
are satisfiable exactly if some list of true variables makes all of them true; whatever variables
are given and whichever models the backend finds, it ends with one of the two answers. -/
theorem satisfiable_exact (hsound : B.Sound) (hcomplete : B.Complete)
    (hplain : ∀ f ∈ fs, Plain "_aux" f) (vars : List String) (σ : Session γ) :
    ∃ b σ', (satisfiable B fs vars).Ends σ (.ok b) σ' ∧
      (b = true ↔ ∃ vs : List String, ∀ f ∈ fs, f.eval (fun v => vs.contains v) = true) := by
  obtain ⟨b, σ', hends, hb⟩ := satisfiable_ends hsound hcomplete hplain vars σ
  exact ⟨b, σ', hends, hb.trans Formula.satisfiable_iff_exists_list⟩

/-- Formulas of many shapes, with variables given that they do not have and the others left out;
one more operand list that is empty makes them unsatisfiable. -/
theorem satisfiable_exact_shapes :
    let fs : List Formula := [.implies (.not (.and [.atom "a", .atom "b"])) (.atom "c"),
      .or [.not (.not (.atom "a"))], .and [], .not (.atom "c")]
    (∀ f ∈ fs ++ [.or []], Plain "_aux" f) ∧
      (∃ σ', (satisfiable .exhaustive fs ["z", "_aux0"]).Ends (.start ()) (.ok true) σ') ∧
      ∃ σ', (satisfiable .exhaustive (fs ++ [.or []]) ["b"]).Ends (.start ()) (.ok false) σ' := by
  intro fs
  have hall : ∀ f ∈ fs ++ [.or []], Plain ("_" ++ "aux") f := by
    intro f hf v hv
    refine not_auxiliary ?_
    have hcases : v = "a" ∨ v = "b" ∨ v = "c" := by
      simp only [fs, List.cons_append, List.nil_append, List.mem_cons, List.not_mem_nil,
        or_false] at hf
      rcases hf with rfl | rfl | rfl | rfl | rfl <;> simp at hv <;> tauto
    rcases hcases with rfl | rfl | rfl <;> decide
  have hplain : ∀ f ∈ fs, Plain ("_" ++ "aux") f := fun f hf => hall f (List.mem_append_left _ hf)
  obtain ⟨b, σ, hends, hb⟩ := satisfiable_exact Backend.exhaustive_sound
    Backend.exhaustive_complete hplain ["z", "_aux0"] (.start ())
  obtain ⟨b', σ', hends', hb'⟩ := satisfiable_exact Backend.exhaustive_sound
    Backend.exhaustive_complete hall ["b"] (.start ())
  have htrue : b = true := hb.2 ⟨["a", "b"], by decide⟩
  have hfalse : b' = false := Bool.eq_false_iff.2 fun h => by
    obtain ⟨vs, hvs⟩ := hb'.1 h
    exact absurd (hvs (.or []) (by simp)) Bool.false_ne_true
  exact ⟨hall, ⟨σ, htrue ▸ hends⟩, σ', hfalse ▸ hends'⟩

end Oracle

end JudgmentAggregation
