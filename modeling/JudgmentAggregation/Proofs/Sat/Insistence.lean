import JudgmentAggregation.Proofs.Sat.Enumerator
import JudgmentAggregation.Sat.Exhaustive
import JudgmentAggregation.Sat.Oracle

/-!
# Backends that give up

A sound backend that may give up is compared with one that answers the same queries in the same way
and searches exhaustively where the first one gives up: `Backend.insisting` is sound and complete. A
computation **shadows** another one when both end in the same way, in the same session, unless a
solving call is given up; then the first one fails for want of an answer (`Run.Shadows`). There is
one law for each way of composing computations and one for a solving call whose answer is looked at,
so that whatever solves with a backend shadows the same thing with the insisting one. Nothing has to
be known here of what the answers mean.
-/

namespace JudgmentAggregation

variable {γ α β : Type} {B : Backend γ}

namespace Backend

/-- The backend that searches exhaustively where another one gives up. -/
def insisting (B : Backend γ) : Backend γ where
  answer q g :=
    match B.answer q g with
    | (.unknown, g) => ((exhaustive.answer q ()).1, g)
    | answered => answered

/-- Insistence changes no answer. -/
theorem insisting_answer_of_ne {q : Query} {g : γ} (h : (B.answer q g).1 ≠ .unknown) :
    B.insisting.answer q g = B.answer q g := by
  rcases hanswer : B.answer q g with ⟨answer, g'⟩
  rw [hanswer] at h
  cases answer with
  | unknown => exact absurd rfl h
  | sat m | unsat => simp only [insisting, hanswer]

/-- Where a backend gives up, insistence has the answer of exhaustive search. -/
theorem insisting_answer_of_unknown {q : Query} {g : γ} (h : (B.answer q g).1 = .unknown) :
    (B.insisting.answer q g).1 = (exhaustive.answer q ()).1 := by
  rcases hanswer : B.answer q g with ⟨answer, g'⟩
  rw [hanswer] at h
  cases h
  simp only [insisting, hanswer]

/-- Insistence is sound if the backend is. -/
theorem Sound.insisting (h : B.Sound) : B.insisting.Sound := by
  intro q g
  by_cases hanswer : (B.answer q g).1 = .unknown
  · rw [insisting_answer_of_unknown hanswer]
    exact exhaustive_sound q ()
  · rw [insisting_answer_of_ne hanswer]
    exact h q g

/-- Insistence never gives up. -/
theorem insisting_complete (B : Backend γ) : B.insisting.Complete := by
  intro q g
  by_cases hanswer : (B.answer q g).1 = .unknown
  · rw [insisting_answer_of_unknown hanswer]
    exact exhaustive_complete q ()
  · rw [insisting_answer_of_ne hanswer]
    exact hanswer

end Backend

/-! ### Solving calls between two sessions -/

/-- From the first session to the second, some solving calls are made. -/
def Session.Makes (σ σ' : Session γ) (cs : List Call) : Prop :=
  σ'.calls = σ.calls ++ cs

/-- Whether an event is a solving call. -/
def Event.isSolved : Event → Bool
  | .solved _ => true
  | _ => false

/-- The solving calls among the later events come after the others. -/
theorem Event.calls_append (es ds : List Event) :
    Event.calls (es ++ ds) = Event.calls ds ++ Event.calls es := by
  simp [Event.calls]

theorem Event.calls_eq_nil {es : List Event} (h : ∀ e ∈ es, e.isSolved = false) :
    Event.calls es = [] := by
  refine List.filterMap_eq_nil_iff.2 fun e he => ?_
  have hsolved := h e (List.mem_reverse.1 he)
  split
  · cases hsolved
  · rfl

/-- Some of the solving calls are **given up**. -/
def GivenUp (cs : List Call) : Prop :=
  ∃ c ∈ cs, c.verdict = .unknown

/-- A result is a **failure**; a fault is none. -/
def Result.Failed (r : Result α) : Prop :=
  ∃ cause context, r = .error (.failure cause context)

/-- A result is a failure for want of an answer. -/
def Result.Unanswered (r : Result α) : Prop :=
  ∃ context, r = .error (.failure .noAnswer context)

variable {σ σ' σ'' : Session γ} {cs ds : List Call}

theorem Session.makes_nil (h : σ'.calls = σ.calls) : σ.Makes σ' [] :=
  h.trans (List.append_nil _).symm

theorem Session.Makes.trans (h : σ.Makes σ' cs) (h' : σ'.Makes σ'' ds) :
    σ.Makes σ'' (cs ++ ds) := by
  rw [Makes] at h h' ⊢
  rw [h', h, List.append_assoc]

theorem not_givenUp_nil : ¬ GivenUp [] := by
  rintro ⟨c, hc, -⟩
  exact List.not_mem_nil hc

theorem givenUp_append : GivenUp (cs ++ ds) ↔ GivenUp cs ∨ GivenUp ds := by
  simp only [GivenUp, List.mem_append, or_and_right, exists_or]

theorem givenUp_singleton {c : Call} : GivenUp [c] ↔ c.verdict = .unknown := by
  simp [GivenUp]

namespace Run

variable {x y : Run γ α} {f g : α → Run γ β} {r : Result α}

/-! ### Shadows -/

/-- How a computation goes from a session if it shadows another one. -/
inductive Shadow (x y : Run γ α) (σ : Session γ) : Prop
  /-- No solving call is given up, and both computations end in the same way. -/
  | same {r : Result α} {σ' : Session γ} {cs : List Call} (hx : x.Ends σ r σ') (hy : y.Ends σ r σ')
    (hcalls : σ.Makes σ' cs) (hcs : ¬ GivenUp cs)
  /-- A solving call is given up, and the first computation fails for want of an answer. -/
  | failed {context : List Context} {σ' : Session γ} {cs : List Call}
    (hx : x.Ends σ (.error (.failure .noAnswer context)) σ') (hcalls : σ.Makes σ' cs)
    (hcs : GivenUp cs)

/-- A computation **shadows** another one: it ends in the same way, unless a solving call is given
up. -/
def Shadows (x y : Run γ α) : Prop :=
  ∀ σ, Shadow x y σ

/-- A computation that tells of no solving call shadows itself. -/
theorem shadows_self (h : x.Tells fun e => e.isSolved = false) : x.Shadows x := by
  intro σ
  obtain ⟨es, hes, hsolved⟩ := h σ
  have hcalls : (x.run.run σ).2.calls = σ.calls := by
    rw [Session.calls, hes, Event.calls_append, Event.calls_eq_nil hsolved, List.append_nil]
    rfl
  exact .same rfl rfl (Session.makes_nil hcalls) not_givenUp_nil

theorem shadows_ofResult (r : Result α) : (ofResult r : Run γ α).Shadows (ofResult r) :=
  shadows_self (tells_ofResult r)

theorem shadows_pure (a : α) : (pure a : Run γ α).Shadows (pure a) :=
  shadows_ofResult (.ok a)

theorem shadows_throw (e : Error) : (throw e : Run γ α).Shadows (throw e) :=
  shadows_ofResult (.error e)

/-- What would come after a failure does not matter. -/
theorem shadows_throw_bind (e : Error) : ((throw e : Run γ α) >>= f).Shadows (throw e >>= g) :=
  fun σ => .same (ends_throw e σ).bind_error (ends_throw e σ).bind_error (Session.makes_nil rfl)
    not_givenUp_nil

/-- To tell of an event that is not a solving call makes no solving call. -/
theorem shadows_record {e : Event} (he : e.isSolved = false := by rfl) :
    (record e : Run γ Unit).Shadows (record e) :=
  shadows_self (tells_record he)

/-- If both parts of a computation are shadowed, so is the whole. -/
theorem Shadows.bind (hx : x.Shadows y) (hf : ∀ a, (f a).Shadows (g a)) :
    (x >>= f).Shadows (y >>= g) := by
  intro σ
  cases hx σ with
  | failed hx hcalls hcs => exact .failed hx.bind_error hcalls hcs
  | @same r σ' cs hx hy hcalls hcs =>
    cases r with
    | error e => exact .same hx.bind_error hy.bind_error hcalls hcs
    | ok a =>
      cases hf a σ' with
      | failed hf hcalls' hcs' =>
        exact .failed (hx.bind hf) (hcalls.trans hcalls') (givenUp_append.2 (.inr hcs'))
      | same hf hg hcalls' hcs' =>
        exact .same (hx.bind hf) (hy.bind hg) (hcalls.trans hcalls')
          (givenUp_append.not.2 (not_or.2 ⟨hcs, hcs'⟩))

/-- A computation in a context is shadowed by its shadow in the context. -/
theorem Shadows.inContext (hx : x.Shadows y) (c : Context) :
    (x.inContext c).Shadows (y.inContext c) := by
  intro σ
  cases hx σ with
  | failed hx hcalls hcs => exact .failed (hx.inContext c) hcalls hcs
  | same hx hy hcalls hcs => exact .same (hx.inContext c) (hy.inContext c) hcalls hcs

section Lift

variable {x y : StateM (Session γ) α} {f g : α → Run γ β} {a : α}

/-- Parts that cannot fail and do the same can be put in front of computations. -/
theorem Shadow.lift (hx : x.run σ = (a, σ')) (hy : y.run σ = (a, σ')) (hcalls : σ.Makes σ' cs)
    (hcs : ¬ GivenUp cs) (h : Shadow (f a) (g a) σ') :
    Shadow (liftM x >>= f) (liftM y >>= g) σ := by
  cases h with
  | failed hf hcalls' hcs' =>
    exact .failed ((ends_lift hx).bind hf) (hcalls.trans hcalls') (givenUp_append.2 (.inr hcs'))
  | same hf hg hcalls' hcs' =>
    exact .same ((ends_lift hx).bind hf) ((ends_lift hy).bind hg) (hcalls.trans hcalls')
      (givenUp_append.not.2 (not_or.2 ⟨hcs, hcs'⟩))

/-- A part that makes a solving call in vain must be followed by a failure. -/
theorem Shadow.lift_failed {z : Run γ β} {c : Call} {context : List Context}
    (hx : x.run σ = (a, σ')) (hcalls : σ.Makes σ' [c]) (hc : c.verdict = .unknown)
    (hf : (f a).Ends σ' (.error (.failure .noAnswer context)) σ') :
    Shadow (liftM x >>= f) z σ :=
  .failed ((ends_lift hx).bind hf) hcalls (givenUp_singleton.2 hc)

end Lift

end Run

/-! ### Right results -/

namespace Run

variable {x y : Run γ α} {Right : Result α → Prop}

/-- A computation ends **right or failed**: it fails exactly if a solving call that it makes is
given up, and this is what it fails for; otherwise its result is right. -/
def RightOrFailed (x : Run γ α) (σ : Session γ) (Right : Result α → Prop) : Prop :=
  ∃ r σ' cs, x.Ends σ r σ' ∧ σ.Makes σ' cs ∧ (GivenUp cs → r.Unanswered) ∧
    (r.Failed → GivenUp cs) ∧ (¬ r.Failed → Right r)

/-- A computation **certainly** ends with a property: it does with every sound and complete backend,
whichever models this finds, and in every session. -/
def Certainly (x : ∀ {γ : Type}, Backend γ → Run γ α) (Right : Result α → Prop) : Prop :=
  ∀ (γ : Type) (B : Backend γ), B.Sound → B.Complete → ∀ σ, ∃ r σ', (x B).Ends σ r σ' ∧ Right r

/-- A computation certainly ends with a property wherever the numbers fit that it tells of. -/
def CertainlyIfFits (x : ∀ {γ : Type}, Backend γ → Run γ α) (Right : Result α → Prop) : Prop :=
  ∀ (γ : Type) (B : Backend γ), B.Sound → B.Complete → ∀ σ, (x B).Fits σ →
    ∃ r σ', (x B).Ends σ r σ' ∧ Right r

/-- What shadows a computation that ends right ends right or failed. The same numbers fit in both
if no call is given up. -/
theorem Shadow.rightOrFailed (h : Shadow x y σ)
    (hy : (x.Fits σ → y.Fits σ) → ∃ r σ', y.Ends σ r σ' ∧ ¬ r.Failed ∧ Right r) :
    x.RightOrFailed σ Right := by
  rcases h with ⟨hx, hy', hcalls, hcs⟩ | ⟨hx, hcalls, hcs⟩
  · obtain ⟨r, σ', hends, hr, hright⟩ := hy fun hfit => hy'.fits_iff.2 (hx.fits_iff.1 hfit)
    cases hends.symm.trans hy'
    exact ⟨_, _, _, hx, hcalls, fun h => absurd h hcs, fun h => absurd h hr, fun _ => hright⟩
  · exact ⟨_, _, _, hx, hcalls, fun _ => ⟨_, rfl⟩, fun _ => hcs, fun h => absurd ⟨_, _, rfl⟩ h⟩

end Run

/-! ### Solving -/

namespace Solver

/-- A solving call is either given up or the same with the insisting backend. -/
theorem run_solve_insisting (B : Backend γ) (as : List (Literal Nat)) (s : Solver)
    (σ : Session γ) :
    ∃ answer s' σ' c, (s.solve B as).run σ = ((answer, s'), σ') ∧ σ.Makes σ' [c] ∧
      (answer = .unknown → c.verdict = .unknown) ∧
        (answer ≠ .unknown → ¬ GivenUp [c] ∧
          (s.solve B.insisting as).run σ = ((answer, s'), σ')) := by
  have hrun (B : Backend γ) : (s.solve B as).run σ = (fun answer : Answer × γ =>
      ((answer.1, { s with greatest := greatestOf as s.greatest }),
        ⟨answer.2, .solved ⟨s.greatest, s.clauses, answer.1.verdict⟩ :: σ.events⟩))
          (B.answer ⟨s.clauses, as⟩ σ.memory) := rfl
  have hverdict (answer : Answer) : answer.verdict = .unknown ↔ answer = .unknown := by
    rcases answer with m | _ | _ <;> simp [Answer.verdict]
  refine ⟨_, _, _, _, hrun B, Session.calls_solved _ _ _, (hverdict _).2, fun hanswer => ⟨?_, ?_⟩⟩
  · exact givenUp_singleton.not.2 ((hverdict _).not.2 hanswer)
  · rw [hrun, Backend.insisting_answer_of_ne hanswer]

/-- A solving call whose answer is looked at. -/
theorem solve_shadows (as : List (Literal Nat)) (s : Solver) (c : Context)
    {f g : Answer × Solver → Option Model → Run γ α}
    (hf : ∀ solved found, (f solved found).Shadows (g solved found)) :
    Run.Shadows
      (do
        let solved ← s.solve B as
        let found ← (Run.ofResult solved.1.model?).inContext c
        f solved found : Run γ α)
      (do
        let solved ← s.solve B.insisting as
        let found ← (Run.ofResult solved.1.model?).inContext c
        g solved found : Run γ α) := by
  intro σ
  obtain ⟨answer, s', σ', call, hrun, hcalls, hcall, hinsisting⟩ := s.run_solve_insisting B as σ
  have hlook (r : Result (Option Model)) := ((Run.shadows_ofResult r).inContext c).bind
    (fun found => hf (answer, s') found) σ'
  cases answer with
  | unknown =>
    exact .lift_failed hrun hcalls (hcall rfl) ((Run.ends_ofResult _ σ').inContext c).bind_error
  | sat m =>
    obtain ⟨hcs, hrun'⟩ := hinsisting nofun
    exact .lift hrun hrun' hcalls hcs (hlook _)
  | unsat =>
    obtain ⟨hcs, hrun'⟩ := hinsisting nofun
    exact .lift hrun hrun' hcalls hcs (hlook _)

end Solver

theorem Oracle.satisfiable_shadows (fs : List Formula) (vars : List String) :
    (satisfiable B fs vars).Shadows (satisfiable B.insisting fs vars) :=
  (Run.shadows_ofResult _).bind fun s =>
    s.solve_shadows [] .checkingSatisfiability fun _ _ => Run.shadows_pure _

namespace Enumerator

/-- Reading the first models, where a failure is passed on. -/
theorem take_shadows (n : Nat) (e : Enumerator) :
    (e.take B n).Shadows (e.take B.insisting n) := by
  induction n generalizing e with
  | zero => exact Run.shadows_pure _
  | succ n ih =>
    intro σ
    cases hex : e.exhausted with
    | true =>
      exact .lift (run_next_of_exhausted B hex σ) (run_next_of_exhausted B.insisting hex σ)
        (Session.makes_nil rfl) not_givenUp_nil (Run.shadows_pure _ σ)
    | false =>
      obtain ⟨answer, s, σ', c, hrun, hcalls, hc, hinsisting⟩ :=
        e.solver.run_solve_insisting B [] σ
      have hnext := run_next hex hrun
      cases answer with
      | unknown =>
        exact .lift_failed hnext hcalls (hc rfl) (Run.ends_ofResult _ σ').bind_error
      | unsat =>
        obtain ⟨hcs, hrun'⟩ := hinsisting nofun
        exact .lift hnext (run_next hex hrun') hcalls hcs (Run.shadows_pure _ σ')
      | sat m =>
        obtain ⟨hcs, hrun'⟩ := hinsisting nofun
        refine .lift hnext (run_next hex hrun') hcalls hcs ?_
        exact (Run.shadows_pure _).bind (fun m' => (ih _).bind fun _ => Run.shadows_pure _) σ'

theorem toList_shadows (e : Enumerator) : (e.toList B).Shadows (e.toList B.insisting) :=
  (take_shadows e.bound e).bind fun _ => Run.shadows_pure _

end Enumerator

end JudgmentAggregation
