import JudgmentAggregation.Cnf.Converter
import JudgmentAggregation.Proofs.Formula.NormalForm

/-!
# Clauses as formulas and back

A CNF formula is a formula: the conjunction of its clauses, each of them a literal or a disjunction
of literals. This formula is in negation normal form and has the same meaning, and a conversion of
it gives the clauses back as they are (`Converter.convert_toFormula`), whatever the converter has
named before.

The converter takes a disjunction apart and puts its literals into one clause, and it makes a clause
of a single literal too. So it makes no difference that a clause of one literal is written as that
literal, and that the empty clause is written as an empty disjunction. A literal is its own literal,
which is why nothing is named.
-/

namespace JudgmentAggregation

variable {A : Valuation String}

/-! ### The formula of some clauses -/

theorem Literal.isNormal_toFormula (l : Literal String) : l.toFormula.isNormal = true := by
  obtain ⟨v, b⟩ := l
  cases b <;> rfl

theorem Literal.eval_toFormula (l : Literal String) : l.toFormula.eval A = l.eval A := by
  obtain ⟨v, b⟩ := l
  cases b <;> simp [toFormula, eval]

/-- A clause is written as the disjunction of its literals or, if it has only one, as that one. -/
theorem Clause.toFormula_cases (c : Clause String) :
    (∃ l, c = [l] ∧ Clause.toFormula c = l.toFormula) ∨
      Clause.toFormula c = .or (c.map Literal.toFormula) := by
  match c with
  | [l] => exact .inl ⟨l, rfl, rfl⟩
  | [] | _ :: _ :: _ => exact .inr rfl

theorem Clause.isNormal_toFormula (c : Clause String) : (Clause.toFormula c).isNormal = true := by
  obtain ⟨l, -, h⟩ | h := toFormula_cases c
  · rw [h, l.isNormal_toFormula]
  · rw [h, Formula.isNormal_or]
    intro f hf
    obtain ⟨l, -, rfl⟩ := List.mem_map.1 hf
    exact l.isNormal_toFormula

theorem Clause.eval_toFormula (c : Clause String) : (Clause.toFormula c).eval A = c.eval A := by
  obtain ⟨l, rfl, h⟩ | h := toFormula_cases c
  · rw [h, l.eval_toFormula, Clause.eval, List.any_cons, List.any_nil, Bool.or_false]
  · rw [h, Formula.eval_or, List.any_map, Clause.eval]
    exact congrArg c.any (funext Literal.eval_toFormula)

theorem Cnf.isNormal_toFormula (F : Cnf String) : F.toFormula.isNormal = true := by
  rw [toFormula, Formula.isNormal_and]
  intro f hf
  obtain ⟨c, -, rfl⟩ := List.mem_map.1 hf
  exact c.isNormal_toFormula

theorem Cnf.eval_toFormula (F : Cnf String) : F.toFormula.eval A = F.eval A := by
  rw [toFormula, Formula.eval_and, List.all_map, Cnf.eval]
  exact congrArg F.all (funext Clause.eval_toFormula)

/-! ### Its conversion -/

namespace Conversion

variable (s : Conversion)

/-- The formula of a literal is converted to the literal, and nothing is named. -/
theorem disjuncts_literal (l : Literal String) : disjuncts l.toFormula s = .ok ([l], s) := by
  obtain ⟨v, b⟩ := l
  cases b <;> rfl

/-- The formulas of some literals are converted to the literals, and nothing is named. -/
theorem disjunctsAll_literals (c : Clause String) :
    disjunctsAll (c.map Literal.toFormula) s = .ok (c, s) := by
  induction c with
  | nil => rfl
  | cons l c ih =>
    rw [List.map_cons, disjunctsAll, disjuncts_literal]
    simp only [bind, Except.bind, ih]
    rfl

/-- The clause of the formula of a clause is that clause, and no name has been given. -/
theorem disjuncts_toFormula (c : Clause String) :
    disjuncts (Clause.toFormula c) s = .ok (c, s) := by
  obtain ⟨l, rfl, h⟩ | h := Clause.toFormula_cases c
  · rw [h, disjuncts_literal]
  · rw [h, disjuncts, disjunctsAll_literals]

/-- The formula of a clause is asserted by the clause itself. -/
theorem conjuncts_toFormula (c : Clause String) :
    conjuncts (Clause.toFormula c) s = .ok (s.emit c) := by
  have hd := disjuncts_toFormula s c
  obtain ⟨⟨v, b⟩, rfl, h⟩ | h := Clause.toFormula_cases c
  · rw [h]
    cases b <;> rfl
  · rw [h] at hd ⊢
    simp only [conjuncts, hd, bind, Except.bind]
    rfl

/-- The clauses are stated one after the other. -/
theorem conjunctsAll_toFormula (F : Cnf String) :
    conjunctsAll (F.map Clause.toFormula) s = .ok (s.emitAll F) := by
  induction F generalizing s with
  | nil => rfl
  | cons c F ih =>
    rw [List.map_cons, conjunctsAll, conjuncts_toFormula]
    simp only [bind, Except.bind, ih]
    simp [emit, emitAll]

end Conversion

/-- A CNF formula survives the way through a formula: the formula is in negation normal form and
evaluates like the clauses, and any converter turns it into the same clauses in the same order, with
the variables it was given and without a new name. -/
theorem Converter.convert_toFormula (c : Converter) (F : Cnf String) (vars : List String) :
    F.toFormula.isNormal = true ∧ (∀ A, F.toFormula.eval A = F.eval A) ∧
      c.convert F.toFormula vars = .ok (F, vars, c) := by
  refine ⟨F.isNormal_toFormula, fun A => F.eval_toFormula, ?_⟩
  have hs : Conversion.conjuncts F.toFormula ⟨c, [], []⟩ = .ok ⟨c, [], F.reverse⟩ := by
    rw [Cnf.toFormula, Conversion.conjuncts, Conversion.conjunctsAll_toFormula, Conversion.emitAll,
      List.append_nil]
  rw [convert, if_pos F.isNormal_toFormula, hs]
  simp only [bind, Except.bind, List.reverse_reverse]
  rfl

/-- A unit clause, the empty clause, and a tautology with a literal twice, converted after a name
has been given. -/
example :
    let F : Cnf String := [[.neg "a"], [], [.pos "b", .neg "b", .pos "b"]]
    (⟨"_aux", [(.and [.atom "a", .atom "b"], "_aux0")]⟩ : Converter).convert
        F.toFormula ["a", "b"] =
      .ok (F, ["a", "b"], ⟨"_aux", [(.and [.atom "a", .atom "b"], "_aux0")]⟩) := by
  rfl

end JudgmentAggregation
