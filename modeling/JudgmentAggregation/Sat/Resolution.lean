import JudgmentAggregation.Cnf.Basic

/-!
# Derivations by resolution

A derivation is a list of steps, each of which derives a new clause from clauses that are there
already, by resolving with one after the other. What is derived from a CNF formula follows from it,
and `Lemmas` are clauses that have been found out in this way. A lemma whose literals are all false
under some assumptions shows that no valuation that satisfies the formula meets the assumptions
(`Lemmas.eval_eq_false`), so a refutation can be checked without any trust in the search that found
it.
-/

namespace JudgmentAggregation

namespace Resolution

/-- A clause of a derivation: one of the given clauses, or one that has been derived. -/
inductive Premise where
  | given (i : Nat)
  | derived (i : Nat)

/-- The derivation of a clause: the clause to begin with, then literals to resolve upon, each with a
clause that holds it. -/
structure Step where
  first : Premise
  chain : List (Literal Nat × Premise)

/-- The resolvent upon `l` of a clause with `l.negate` and a clause with `l`. -/
def resolve (l : Literal Nat) (c d : Clause Nat) : Clause Nat :=
  let c := c.filter (· ≠ l.negate)
  c ++ d.filter fun m => m ≠ l ∧ m ∉ c

/-- The clause of a number. Where there is none, a clause that is always true stands in. -/
def clauseAt (cs : Array (Clause Nat)) (i : Nat) : Clause Nat :=
  cs.getD i [.pos 0, .neg 0]

/-- The clause of a premise. -/
def Premise.clause (given derived : Array (Clause Nat)) : Premise → Clause Nat
  | .given i => clauseAt given i
  | .derived i => clauseAt derived i

/-- The clause that a step derives. -/
def Step.derive (given derived : Array (Clause Nat)) (s : Step) : Clause Nat :=
  s.chain.foldl (fun c p => resolve p.1 c (p.2.clause given derived))
    (s.first.clause given derived)

/-- The clauses derived after some more steps. -/
def replay (given derived : Array (Clause Nat)) (steps : List Step) : Array (Clause Nat) :=
  steps.foldl (fun derived s => derived.push (s.derive given derived)) derived

/-! ### What is derived follows -/

variable {A : Valuation Nat}

theorem eval_resolve {l : Literal Nat} {c d : Clause Nat} (hc : c.eval A = true)
    (hd : d.eval A = true) : (resolve l c d).eval A = true := by
  simp only [Clause.eval, List.any_eq_true] at hc hd ⊢
  obtain ⟨m, hm, hmA⟩ := hc
  obtain ⟨n, hn, hnA⟩ := hd
  by_cases h : m = l.negate
  · have hl : l.eval A = false := by simpa [h] using hmA
    have hnl : n ≠ l := by rintro rfl; simp [hl] at hnA
    refine ⟨n, ?_, hnA⟩
    simp only [resolve, List.mem_append, List.mem_filter, decide_eq_true_eq]
    by_cases hnc : n ∈ c ∧ n ≠ l.negate
    · exact .inl hnc
    · exact .inr ⟨hn, hnl, hnc⟩
  · exact ⟨m, by simp [resolve, hm, h], hmA⟩

theorem eval_clauseAt {cs : Array (Clause Nat)} (h : ∀ c ∈ cs, c.eval A = true) (i : Nat) :
    (clauseAt cs i).eval A = true := by
  rw [clauseAt, Array.getD_eq_getD_getElem?]
  cases hi : cs[i]? with
  | none => cases hA : A 0 <;> simp [Clause.eval, Literal.eval, Literal.pos, Literal.neg, hA]
  | some c => exact h c (Array.mem_of_getElem? hi)

theorem eval_derive {given derived : Array (Clause Nat)} (hg : ∀ c ∈ given, c.eval A = true)
    (hd : ∀ c ∈ derived, c.eval A = true) (s : Step) : (s.derive given derived).eval A = true := by
  have premise : ∀ p : Premise, (p.clause given derived).eval A = true
    | .given i => eval_clauseAt hg i
    | .derived i => eval_clauseAt hd i
  suffices H : ∀ c : Clause Nat, c.eval A = true →
      (s.chain.foldl (fun c p => resolve p.1 c (p.2.clause given derived)) c).eval A = true from
    H _ (premise s.first)
  induction s.chain with
  | nil => exact fun _ h => h
  | cons p ps ih => exact fun c hc => ih _ (eval_resolve hc (premise p.2))

theorem eval_replay {given derived : Array (Clause Nat)} (hg : ∀ c ∈ given, c.eval A = true)
    (hd : ∀ c ∈ derived, c.eval A = true) (steps : List Step) :
    ∀ c ∈ replay given derived steps, c.eval A = true := by
  induction steps generalizing derived with
  | nil => exact hd
  | cons s steps ih =>
    refine ih fun c hc => ?_
    rcases Array.mem_push.1 hc with hc | rfl
    · exact hd c hc
    · exact eval_derive hg hd s

/-! ### Lemmas -/

/-- Clauses that follow from a CNF formula. -/
structure Lemmas (F : Cnf Nat) where
  clauses : Array (Clause Nat)
  follow : ∀ A, F.eval A = true → ∀ c ∈ clauses, c.eval A = true

namespace Lemmas

variable {F G : Cnf Nat}

/-- No lemmas yet. -/
def empty : Lemmas F :=
  ⟨#[], by simp⟩

/-- The lemmas of a CNF formula that is weaker. -/
def mono (h : ∀ A, G.eval A = true → F.eval A = true) (l : Lemmas F) : Lemmas G :=
  ⟨l.clauses, fun A hA => l.follow A (h A hA)⟩

/-- The lemmas and what some steps derive from them. The clauses of the formula are numbered from
its end, and so keep their numbers when clauses are put in front. -/
def extend (steps : List Step) (l : Lemmas F) : Lemmas F where
  clauses := replay F.reverse.toArray l.clauses steps
  follow A hA := eval_replay
    (fun c hc => List.all_eq_true.1 hA c (by simpa using hc)) (l.follow A hA) steps

/-- Whether the last lemma says that some literals are not all true. -/
def denies (ls : List (Literal Nat)) (l : Lemmas F) : Bool :=
  l.clauses.back?.any fun c => c.all fun m => ls.contains m.negate

theorem eval_eq_false {ls : List (Literal Nat)} {l : Lemmas F} (h : l.denies ls = true)
    (hF : F.eval A = true) : ls.all (·.eval A) = false := by
  obtain ⟨c, hc, h⟩ := (Option.any_eq_true ..).1 h
  obtain ⟨m, hm, hmA⟩ := List.any_eq_true.1 (l.follow A hF c (Array.mem_of_back? hc))
  have hneg : m.negate ∈ ls := by simpa using List.all_eq_true.1 h m hm
  rw [Bool.eq_false_iff]
  intro hall
  have := List.all_eq_true.1 hall _ hneg
  simp [hmA] at this

end Lemmas

end Resolution

end JudgmentAggregation
