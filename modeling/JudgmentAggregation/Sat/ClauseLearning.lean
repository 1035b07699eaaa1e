import JudgmentAggregation.Sat.ClauseLearning.Search

/-!
# Search with clause learning as a backend

The backend remembers the clauses of the last query, what it has learned from them and the state of
the search. When the clauses of a query extend those of the last one, as they do in an incremental
solver, the search goes on from there.

The search proves nothing about its findings, and the backend trusts neither kind: a model is
evaluated, the steps of a refutation are replayed, and if either fails, or the search takes too
long, all valuations are tried. The memory holds no clause that does not follow. So the backend is
sound and complete whatever the search does (`Backend.learning_sound`,
`Backend.learning_complete`).
-/

namespace JudgmentAggregation

namespace ClauseLearning

open Resolution (Lemmas)

/-- The clauses of the last query, lemmas about them, and the state of the search. -/
structure Memory where
  clauses : Cnf Nat
  lemmas : Lemmas clauses
  state : State

namespace Memory

/-- The memory of no query. -/
def empty : Memory := ⟨[], .empty, .empty⟩

/-- What a memory is worth for some clauses: those that are new, and the lemmas and the state to go
on with. Usually the clauses remembered are the very end of the list, and not compared one by
one. -/
def resume (F : Cnf Nat) (g : Memory) : Cnf Nat × Lemmas F × State :=
  match g with
  | ⟨G, lemmas, state⟩ =>
    let n := F.length - G.length
    match withPtrEqDecEq G (F.drop n) fun _ => inferInstance with
    | .isTrue h => (F.take n, lemmas.mono fun A hA => by
        rw [h]
        exact List.all_eq_true.2 fun c hc => List.all_eq_true.1 hA c (List.mem_of_mem_drop hc),
        state)
    | .isFalse _ => (F, .empty, .empty)

end Memory

end ClauseLearning

namespace Query

/-- Whether two assumptions are opposite. -/
def contradictory (q : Query) : Bool :=
  q.assumptions.any fun l => q.assumptions.contains l.negate

theorem eval_of_contradictory {q : Query} (h : q.contradictory = true) (A : Valuation Nat) :
    q.eval A = false := by
  obtain ⟨l, hl, hn⟩ := List.any_eq_true.1 h
  rw [Bool.eq_false_iff]
  intro hq
  have hall := List.all_eq_true.1 (Bool.and_eq_true_iff.1 hq).2
  have := hall _ (List.contains_iff_mem.1 hn)
  simp [hall l hl] at this

end Query

namespace Backend

open ClauseLearning
open Resolution (Lemmas)

/-- The answer of exhaustive search. -/
def giveIn (q : Query) : Answer × Memory :=
  ((exhaustive.answer q ()).1, .empty)

/-- What is remembered after a refutation. If it did without assumptions, there is nothing to go on
with. -/
def afterRefutation (q : Query) (lemmas : Lemmas q.clauses) (s : State) : Memory :=
  if lemmas.denies [] then .empty else ⟨q.clauses, lemmas, (s.backtrack 0).clearSteps⟩

/-- The answer that a finding amounts to if it stands the check. -/
def checked (q : Query) (lemmas : Lemmas q.clauses) : Finding × State → Answer × Memory
  | (.model m, s) => if q.eval m.valuation then (.sat m, ⟨q.clauses, lemmas, s⟩) else giveIn q
  | (.refutation, s) =>
    let lemmas := lemmas.extend s.steps.reverse
    if lemmas.denies q.assumptions then (.unsat, afterRefutation q lemmas s) else giveIn q
  | (.nothing, _) => giveIn q

/-- The backend that searches with clause learning and checks what it finds. -/
def learning (fuel : Nat) : Backend Memory where
  answer q g :=
    if q.contradictory then (.unsat, g)
    else
      match g.resume q.clauses with
      | (new, lemmas, s) => checked q lemmas (search fuel new.reverse q.assumptions s)

theorem giveIn_trueOf (q : Query) : (giveIn q).1.TrueOf q :=
  exhaustive_sound q ()

theorem giveIn_ne_unknown (q : Query) : (giveIn q).1 ≠ .unknown :=
  exhaustive_complete q ()

theorem checked_trueOf (q : Query) (lemmas : Lemmas q.clauses) :
    ∀ r, (checked q lemmas r).1.TrueOf q
  | (.model m, s) => by
    simp only [checked]
    split
    · next h => exact h
    · exact giveIn_trueOf q
  | (.refutation, s) => by
    simp only [checked]
    split
    · next h =>
      intro A
      cases hF : q.clauses.eval A
      · simp [Query.eval, hF]
      · simp [Query.eval, Lemmas.eval_eq_false h hF]
    · exact giveIn_trueOf q
  | (.nothing, _) => giveIn_trueOf q

theorem checked_ne_unknown (q : Query) (lemmas : Lemmas q.clauses) :
    ∀ r, (checked q lemmas r).1 ≠ .unknown
  | (.model m, s) => by
    simp only [checked]
    split
    · simp
    · exact giveIn_ne_unknown q
  | (.refutation, s) => by
    simp only [checked]
    split
    · simp
    · exact giveIn_ne_unknown q
  | (.nothing, _) => giveIn_ne_unknown q

theorem learning_sound (fuel : Nat) : (learning fuel).Sound := by
  intro q g
  simp only [learning]
  split
  · next h => exact Query.eval_of_contradictory h
  · exact checked_trueOf q _ _

theorem learning_complete (fuel : Nat) : (learning fuel).Complete := by
  intro q g
  simp only [learning]
  split
  · simp
  · exact checked_ne_unknown q _ _

/-- The backend in use where no other is given. -/
def standard : Backend Memory :=
  learning 1000000000

end Backend

end JudgmentAggregation
