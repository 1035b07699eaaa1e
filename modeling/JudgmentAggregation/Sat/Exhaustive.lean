import JudgmentAggregation.Sat.Backend

/-!
# Exhaustive search

The plainest backend tries the valuations of the variables one after the other. It is sound and
complete (`Backend.exhaustive_sound`, `Backend.exhaustive_complete`), and fit for few variables.
-/

namespace JudgmentAggregation

namespace Query

/-- A number above all the variables of a list of literals. -/
def boundOf (ls : List (Literal Nat)) : Nat :=
  ls.foldr (fun l n => max (l.var + 1) n) 0

/-- A number above all the variables of a query. -/
def bound (q : Query) : Nat :=
  max (boundOf q.clauses.flatten) (boundOf q.assumptions)

theorem lt_boundOf {l : Literal Nat} {ls : List (Literal Nat)} (h : l ∈ ls) :
    l.var < boundOf ls := by
  induction ls with
  | nil => simp at h
  | cons m ls ih =>
    simp only [boundOf, List.foldr_cons]
    rcases List.mem_cons.1 h with rfl | h
    · omega
    · have := ih h
      simp only [boundOf] at this
      omega

theorem eval_congr {q : Query} {A B : Valuation Nat} (h : ∀ v < q.bound, A v = B v) :
    q.eval A = q.eval B := by
  have clauses : q.clauses.eval A = q.clauses.eval B := Cnf.eval_congr fun c hc l hl =>
    h _ <| Nat.lt_of_lt_of_le (lt_boundOf (List.mem_flatten.2 ⟨c, hc, hl⟩)) (Nat.le_max_left ..)
  have assumptions : ∀ l ∈ q.assumptions, l.eval A = l.eval B := fun l hl => by
    have : l.var < q.bound := Nat.lt_of_lt_of_le (lt_boundOf hl) (Nat.le_max_right ..)
    simp [Literal.eval, h _ this]
  rw [eval, eval, clauses, Bool.eq_iff_iff]
  simp +contextual [assumptions]

end Query

namespace Exhaustive

/-- The valuation of the first variables by a list, all others being false. -/
def ofList (w : List Bool) : Valuation Nat := fun v => w.getD v false

/-- The first valuation of `n` more variables, put in front of `w`, that satisfies a query. -/
def find? (q : Query) : (n : Nat) → (w : List Bool) → Option (List Bool)
  | 0, w => if q.eval (ofList w) then some w else none
  | n + 1, w => (find? q n (false :: w)).or (find? q n (true :: w))

theorem eval_of_find? {q : Query} {n : Nat} {w w' : List Bool} (h : find? q n w = some w') :
    q.eval (ofList w') = true := by
  induction n generalizing w with
  | zero =>
    simp only [find?] at h
    split at h <;> simp_all
  | succ n ih =>
    rcases Option.or_eq_some_iff.1 h with h | ⟨-, h⟩ <;> exact ih h

theorem eval_of_find?_eq_none {q : Query} {n : Nat} {w u : List Bool} (h : find? q n w = none)
    (hu : u.length = n) : q.eval (ofList (u ++ w)) = false := by
  induction n generalizing w u with
  | zero =>
    obtain rfl := List.length_eq_zero_iff.1 hu
    simpa [find?] using h
  | succ n ih =>
    obtain ⟨u, b, rfl⟩ : ∃ u' b, u = u' ++ [b] :=
      ⟨u.dropLast, u.getLast (by rintro rfl; simp at hu), (List.dropLast_concat_getLast _).symm⟩
    have hn : u.length = n := by simpa using hu
    obtain ⟨hf, ht⟩ := Option.or_eq_none_iff.1 h
    cases b
    · simpa using ih hf hn
    · simpa using ih ht hn

end Exhaustive

namespace Backend

/-- The backend that tries all valuations. -/
def exhaustive : Backend Unit where
  answer q _ :=
    match Exhaustive.find? q q.bound [] with
    | some w => (.sat ⟨(w.map some).toArray⟩, ())
    | none => (.unsat, ())

theorem exhaustive_sound : exhaustive.Sound := by
  intro q g
  simp only [exhaustive]
  split
  · next w h =>
    have : (⟨(w.map some).toArray⟩ : Model).valuation = Exhaustive.ofList w := by
      funext v
      simp only [Model.valuation, Model.value?, Exhaustive.ofList, List.getElem?_toArray,
        List.getElem?_map, List.getD_eq_getElem?_getD]
      cases w[v]? <;> rfl
    simpa [Answer.TrueOf, this] using Exhaustive.eval_of_find? h
  · next h =>
    intro A
    have := Exhaustive.eval_of_find?_eq_none h (u := (List.range q.bound).map A) (by simp)
    rw [← this]
    refine Query.eval_congr fun v hv => ?_
    simp [Exhaustive.ofList, List.getD_eq_getElem?_getD, List.getElem?_range hv]

theorem exhaustive_complete : exhaustive.Complete := by
  intro q g
  simp only [exhaustive]
  split <;> simp

end Backend

end JudgmentAggregation
