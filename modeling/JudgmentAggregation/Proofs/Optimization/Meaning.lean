import JudgmentAggregation.Optimization.Search
import JudgmentAggregation.Proofs.Bound.Constraint
import JudgmentAggregation.Proofs.Sat.Enumerator

/-!
# What a store means

A store **means** a property of valuations of the names when a valuation has it exactly if an
agreeing valuation of the numbers satisfies the clauses. The meaning does not change when names are
numbered, gets stronger by what a bound adds (`Store.Means.adds`), and does not change by what is
added under a selector that is false from then on (`Store.Means.of_selector`).
-/

namespace JudgmentAggregation

open VariableIndex

namespace Store

/-- The valuations of the names that have a property are those that agree with a model of the
clauses. -/
structure Means (s : Store) (Q : Valuation String → Prop) : Prop where
  orderly : s.Orderly
  iff : ∀ A, (∃ N, s.index.Agrees N A ∧ s.Holds N) ↔ Q A

variable {s s' : Store} {Q R : Valuation String → Prop} {C : Valuation Nat → Prop}
  {N : Valuation Nat} {A : Valuation String} {i : VariableIndex} {E : BoundEncoder}

/-- A valuation that holds in a store is about one that the store means. -/
theorem Means.of_holds (h : s.Means Q) (hN : s.index.Agrees N A) (hs : s.Holds N) : Q A :=
  (h.iff A).1 ⟨N, hN, hs⟩

theorem Means.congr (h : s.Means Q) (hQR : ∀ A, Q A ↔ R A) : s.Means R :=
  ⟨h.orderly, fun A => (h.iff A).trans (hQR A)⟩

/-- Only the clauses of the solver count. -/
theorem Means.of_clauses (h : s.Means Q) {solver : Solver}
    (hsolver : solver.clauses = s.solver.clauses) : Means ⟨solver, s.index⟩ Q := by
  have hholds (N) : Holds ⟨solver, s.index⟩ N ↔ s.Holds N := by rw [Holds, Holds, hsolver]
  refine ⟨⟨h.orderly.index, fun c hc => h.orderly.var_le c (hsolver ▸ hc)⟩, fun A => ?_⟩
  rw [← h.iff A]
  exact exists_congr fun N => and_congr_right fun _ => hholds N

/-- Numbering more names does not change the meaning. -/
theorem Means.number (h : s.Means Q) (ho : i.Orderly) (hi : s.index.Extends i) :
    Means ⟨s.solver, i⟩ Q where
  orderly := ⟨ho, fun c hc l hl => Nat.le_trans (h.orderly.var_le c hc l hl) hi.size_le⟩
  iff A := by
    rw [← h.iff A]
    constructor
    · rintro ⟨N, hN, hs⟩
      exact ⟨N, hi.agrees hN, hs⟩
    · rintro ⟨N, hN, hs⟩
      obtain ⟨N', hsame, hN'⟩ := hi.exists_agrees ho hN
      exact ⟨N', hN', h.orderly.holds_of_same hsame hs⟩

theorem Adds.get?_eq (h : s.Adds s' C) (name : String) :
    s'.index.get? name = s.index.get? name := by
  rw [VariableIndex.get?, VariableIndex.get?, h.names_eq]

/-- Clauses that are added leave it to the same valuations to agree. -/
theorem Adds.agrees_iff (h : s.Adds s' C) : s'.index.Agrees N A ↔ s.index.Agrees N A :=
  forall_congr' fun name => by rw [h.get?_eq name]

theorem Adds.extends (h : s.Adds s' C) : s.index.Extends s'.index :=
  ⟨h.size_le, fun name _ hv => (h.get?_eq name).trans hv, fun name _ hv =>
    .inl ((h.get?_eq name).symm.trans hv)⟩

/-- What is added becomes part of the meaning. -/
theorem Means.adds (h : s.Means Q) (hadds : s.Adds s' C)
    (hR : ∀ N A, s.index.Agrees N A → (C N ↔ R A)) : s'.Means fun A => Q A ∧ R A where
  orderly := hadds.orderly
  iff A := by
    constructor
    · rintro ⟨N, hN, hs'⟩
      rw [hadds.agrees_iff] at hN
      obtain ⟨hs, hC⟩ := hadds.sound N hs'
      exact ⟨h.of_holds hN hs, (hR N A hN).1 hC⟩
    · rintro ⟨hQ, hRA⟩
      obtain ⟨N, hN, hs⟩ := (h.iff A).2 hQ
      obtain ⟨N', hsame, hs'⟩ := hadds.complete N hs ((hR N A hN).2 hRA)
      exact ⟨N', hadds.agrees_iff.2 (hN.of_eq h.orderly.index hsame), hs'⟩

/-! ### Clauses -/

/-- The clauses of a CNF formula on the numbers of their names mean the formula. -/
theorem means_cnf (F : Cnf String) {i : VariableIndex} (hi : i.Orderly) :
    Means ⟨Solver.empty.addAll (i.cnf F).1, (i.cnf F).2⟩ fun A => F.eval A = true := by
  have ho := numbers_cnf.orderly F i hi
  have hF := numbers_cnf.related F i hi
  have hholds (N) : Holds ⟨Solver.empty.addAll (i.cnf F).1, (i.cnf F).2⟩ N ↔
      Cnf.eval N (i.cnf F).1 = true := by
    rw [Holds, Solver.eval_addAll]
    simp [Solver.empty, Cnf.eval]
  refine ⟨⟨ho, fun d hd l hl => ?_⟩, fun A => ⟨?_, fun hA => ?_⟩⟩
  · rw [Solver.clauses_addAll, Solver.empty, List.append_nil, List.mem_reverse] at hd
    obtain ⟨c, -, hc⟩ := ListFacts.exists_of_forall₂ hF hd
    obtain ⟨l', -, hl'⟩ := ListFacts.exists_of_forall₂ hc hl
    exact ho.le_size hl'.1
  · rintro ⟨N, hN, hF'⟩
    rw [← cnf_eval_eq hF hN]
    exact (hholds N).1 hF'
  · have hN := ho.agrees_numbered A
    refine ⟨_, hN, (hholds _).2 ?_⟩
    rw [cnf_eval_eq hF hN, hA]

/-! ### Selectors -/

/-- The store with one more number, for a selector. -/
def select (s : Store) : Store :=
  { s with index := s.index.allocate 1 }

/-- A new variable does not change what a store means. -/
theorem Means.select (h : s.Means Q) : s.select.Means Q :=
  h.number (h.orderly.index.allocate 1) (VariableIndex.extends_allocate _ 1)

/-- What is added under a selector does not count once the selector is false. -/
theorem Means.of_selector (h : s.Means Q) (hadds : s.select.Adds s' C)
    (hC : ∀ N, N (s.index.size + 1) = false → C N) {solver : Solver}
    (hsolver : solver.clauses = s'.solver.clauses) :
    Means ⟨solver.add [.neg (s.index.size + 1)], s'.index⟩ Q := by
  have hholds (N) : Holds ⟨solver.add [.neg (s.index.size + 1)], s'.index⟩ N ↔
      N (s.index.size + 1) = false ∧ s'.Holds N := by
    simp [Holds, Solver.eval_add, hsolver, Clause.eval, Literal.eval, Literal.neg]
  refine ⟨⟨hadds.orderly.index, fun c hc l hl => ?_⟩, fun A => ?_⟩
  · rcases List.mem_cons.1 hc with rfl | hc
    · rw [List.mem_singleton.1 hl]
      exact hadds.size_le
    · exact hadds.orderly.var_le c (hsolver ▸ hc) l hl
  · constructor
    · rintro ⟨N, hN, hs'⟩
      have hs := (hadds.sound N ((hholds N).1 hs').2).1
      exact h.select.of_holds (hadds.agrees_iff.1 hN) hs
    · intro hQ
      obtain ⟨N, hN, hs⟩ := (h.iff A).2 hQ
      -- The selector is new, so it can be made false.
      let N₀ : Valuation Nat := fun v => if v = s.index.size + 1 then false else N v
      have hsame₀ : s.Same N N₀ := fun v hv => if_neg (by omega)
      have hfalse₀ : N₀ (s.index.size + 1) = false := if_pos rfl
      have hs₀ : s.select.Holds N₀ := h.orderly.holds_of_same hsame₀ hs
      obtain ⟨N₁, hsame₁, hs₁⟩ := hadds.complete N₀ hs₀ (hC N₀ hfalse₀)
      have hagrees₀ : s.index.Agrees N₀ A := hN.of_eq h.orderly.index hsame₀
      have hagrees₁ : s.select.index.Agrees N₁ A := hagrees₀.of_eq h.select.orderly.index hsame₁
      have hfalse₁ : N₁ (s.index.size + 1) = false := (hsame₁ _ (Nat.le_refl _)).trans hfalse₀
      exact ⟨N₁, hadds.agrees_iff.2 hagrees₁, (hholds N₁).2 ⟨hfalse₁, hs₁⟩⟩

end Store

namespace Enumerator

variable {s : Store} {Q : Valuation String → Prop} {names : List String}

/-- What remains to be listed by the enumerator of a store is what its meaning looks like. -/
theorem remaining_ofSolver_iff {names : List String} {projection : List (String × Nat)}
    (hs : s.Means Q) (hprojection : List.Forall₂ (fun name p => p.1 = name ∧
      s.index.get? name = some p.2) names projection) (v : NamedModel) :
    (Enumerator.ofSolver s.solver projection).Remaining v ↔
      ∃ A, Q A ∧ v = names.map fun name => (name, A name) := by
  have hview {N A} (hN : s.index.Agrees N A) :
      Enumerator.view projection N = names.map fun name => (name, A name) := by
    induction hprojection with
    | nil => rfl
    | cons h _ ih =>
      obtain ⟨rfl, hv⟩ := h
      rw [Enumerator.view, List.map_cons, List.map_cons, hN _ _ hv, ← ih]
      rfl
  constructor
  · rintro ⟨-, N, hN, rfl⟩
    have hA := s.index.agrees_named N
    exact ⟨_, hs.of_holds hA hN, hview hA⟩
  · rintro ⟨A, hQ, rfl⟩
    obtain ⟨N, hN, hholds⟩ := (hs.iff A).2 hQ
    exact ⟨rfl, N, hholds, hview hN⟩

/-- What remains to be listed by the enumerator of a CNF formula is what its models look like. -/
theorem remaining_ofCnf_iff (F : Cnf String) (names : List String) (v : NamedModel) :
    (Enumerator.ofCnf F names).Remaining v ↔
      ∃ A, F.eval A = true ∧ v = names.map fun name => (name, A name) := by
  have ho := numbers_insertAll.orderly names _ orderly_empty
  have hprojection := numbers_insertAll.related names _ orderly_empty
  have hext := numbers_cnf.grows F _ ho
  exact remaining_ofSolver_iff (Store.means_cnf F ho)
    (numbers_insertAll.mono _ _ _ _ hext hprojection) v

end Enumerator

end JudgmentAggregation
