import JudgmentAggregation.Sat.Solver

/-!
# How computations end

A computation in a session ends in a result and in another session (`Run.Ends`). There is one law
for each way of composing computations, and one for a solving call: a backend that is sound and
complete finds a model of the clauses and the assumptions, or there is none (`Solver.solve_spec`).

The events of a session are never taken back: what a computation tells of comes on top of them
(`Run.Tells`). Among it are the numbers that encoders of bounds use as variables. They **fit** when
all of them are below 2³¹ (`Run.Fits`), and then they do so in each part of the computation
(`Run.Fits.left`, `Run.Fits.right`).
-/

namespace JudgmentAggregation

namespace Run

variable {γ α β : Type} {x : Run γ α} {f : α → Run γ β} {a : α} {e : Error} {r : Result α}
  {r' : Result β} {σ σ' σ'' : Session γ}

/-- A computation **ends** in a result and a session. -/
def Ends (x : Run γ α) (σ : Session γ) (r : Result α) (σ' : Session γ) : Prop :=
  x.run.run σ = (r, σ')

theorem ends_pure (a : α) (σ : Session γ) : Ends (pure a) σ (.ok a) σ :=
  rfl

theorem ends_throw (e : Error) (σ : Session γ) : Ends (throw e : Run γ α) σ (.error e) σ :=
  rfl

theorem ends_ofResult (r : Result α) (σ : Session γ) : Ends (ofResult r) σ r σ :=
  rfl

theorem ends_ok (h : r = .ok a) (σ : Session γ) : Ends (ofResult r) σ (.ok a) σ :=
  h ▸ ends_ofResult r σ

theorem ends_error (h : r = .error e) (σ : Session γ) : Ends (ofResult r) σ (.error e) σ :=
  h ▸ ends_ofResult r σ

theorem ends_record (event : Event) (σ : Session γ) :
    Ends (record event) σ (.ok ()) { σ with events := event :: σ.events } :=
  rfl

theorem ofResult_bind (h : r = .ok a) (f : α → Run γ β) : ofResult r >>= f = f a := by
  rw [h]
  rfl

theorem ofResult_error_bind (e : Error) (f : α → Run γ β) :
    ofResult (.error e) >>= f = throw e :=
  rfl

/-- The second part of a computation runs on the session that the first one leaves, if it has a
result. -/
theorem run_bind (x : Run γ α) (f : α → Run γ β) (σ : Session γ) :
    (x >>= f).run.run σ = match x.run.run σ with
      | (.ok a, σ) => (f a).run.run σ
      | (.error e, σ) => (.error e, σ) := by
  simp only [ExceptT.run_bind, StateT.run_bind]
  show (match x.run.run σ with | (r, σ') => _) = _
  rcases x.run.run σ with ⟨_ | _, σ'⟩ <;> rfl

/-- A computation goes on with the result of its first part. -/
theorem Ends.bind (hx : x.Ends σ (.ok a) σ') (hf : (f a).Ends σ' r' σ'') :
    (x >>= f).Ends σ r' σ'' := by
  rw [Ends] at hx hf ⊢
  rw [run_bind, hx]
  exact hf

/-- A computation ends where its first part fails. -/
theorem Ends.bind_error (hx : x.Ends σ (.error e) σ') : (x >>= f).Ends σ (.error e) σ' := by
  rw [Ends] at hx ⊢
  rw [run_bind, hx]

/-- The parts of a computation that ends in a result. -/
theorem Ends.of_bind {b : β} (h : (x >>= f).Ends σ (.ok b) σ'') :
    ∃ a σ', x.Ends σ (.ok a) σ' ∧ (f a).Ends σ' (.ok b) σ'' := by
  rw [Ends, run_bind] at h
  split at h
  · next a σ' hx => exact ⟨a, σ', hx, h⟩
  · cases h

/-- A result that needs no session leaves it as it is. -/
theorem Ends.of_ofResult (h : (ofResult r).Ends σ (.ok a) σ') : r = .ok a ∧ σ' = σ := by
  cases h
  exact ⟨rfl, rfl⟩

/-- A context changes nothing but the error. -/
theorem Ends.inContext (hx : x.Ends σ r σ') (c : Context) :
    (x.inContext c).Ends σ (r.mapError (Error.inContext c)) σ' := by
  rw [Ends] at hx ⊢
  show (match x.run.run σ with | (r, σ') => (r.mapError (Error.inContext c), σ')) = _
  rw [hx]

theorem Ends.inContext_ok (hx : x.Ends σ (.ok a) σ') (c : Context) :
    (x.inContext c).Ends σ (.ok a) σ' :=
  hx.inContext c

/-- What ends well in a context ends so without it. -/
theorem Ends.of_inContext {c : Context} (h : (x.inContext c).Ends σ (.ok a) σ') :
    x.Ends σ (.ok a) σ' := by
  rcases hx : x.run.run σ with ⟨r, σ₁⟩
  have hends := Ends.inContext (x := x) hx c
  rw [Ends, h] at hends
  cases r <;> cases hends
  exact hx

/-- A computation that cannot fail, as part of one that can. -/
theorem ends_lift {x : StateM (Session γ) α} (hx : x.run σ = (a, σ')) :
    Ends (liftM x) σ (.ok a) σ' := by
  show (match x.run σ with | (a, σ') => (Except.ok a, σ')) = _
  rw [hx]

/-- A part that cannot fail ends in its result. -/
theorem Ends.of_lift {x : StateM (Session γ) α} (h : Ends (liftM x) σ (.ok a) σ') :
    x.run σ = (a, σ') := by
  rcases hx : x.run σ with ⟨a', σ₁⟩
  have hends := ends_lift hx
  rw [Ends, h] at hends
  cases hends
  rfl

end Run

/-! ### What a computation tells -/

namespace Run

variable {γ α β : Type} {P Q : Event → Prop} {x : Run γ α} {f : α → Run γ β} {a : α}
  {σ σ' : Session γ}

/-- A computation **tells** only of events with a property, whatever session it goes on in. -/
def Tells (P : Event → Prop) (x : Run γ α) : Prop :=
  ∀ σ, ∃ es, (x.run.run σ).2.events = es ++ σ.events ∧ ∀ e ∈ es, P e

/-- A computation **keeps** the events before it. -/
def Keeps (x : Run γ α) : Prop :=
  x.Tells fun _ => True

theorem Tells.imp (h : x.Tells P) (hPQ : ∀ e, P e → Q e) : x.Tells Q := fun σ => by
  obtain ⟨es, hes, hP⟩ := h σ
  exact ⟨es, hes, fun e he => hPQ e (hP e he)⟩

/-- A computation that is known to tell of some events only keeps those before it. -/
theorem Tells.keeps (h : x.Tells P) : x.Keeps :=
  h.imp fun _ _ => trivial

theorem tells_ofResult (r : Result α) : (ofResult r : Run γ α).Tells P :=
  fun _ => ⟨[], rfl, List.forall_mem_nil _⟩

theorem tells_pure (a : α) : (pure a : Run γ α).Tells P :=
  tells_ofResult (.ok a)

theorem tells_record {e : Event} (he : P e) : (record e : Run γ Unit).Tells P :=
  fun _ => ⟨[e], rfl, List.forall_mem_singleton.2 he⟩

/-- Two parts that tell only of some events tell of no others together. -/
theorem Tells.bind (hx : x.Tells P) (hf : ∀ a, (f a).Tells P) : (x >>= f).Tells P := by
  intro σ
  obtain ⟨es, hes, hP⟩ := hx σ
  rcases hrun : x.run.run σ with ⟨e | a, σ'⟩ <;> rw [run_bind, hrun] <;> rw [hrun] at hes
  · exact ⟨es, hes, hP⟩
  · obtain ⟨ds, hds, hP'⟩ := hf a σ'
    refine ⟨ds ++ es, ?_, List.forall_mem_append.2 ⟨hP', hP⟩⟩
    rw [List.append_assoc, ← hes]
    exact hds

theorem Tells.inContext (hx : x.Tells P) (c : Context) : (x.inContext c).Tells P := by
  intro σ
  rw [(Ends.inContext (x := x) (σ := σ) rfl c : (x.inContext c).run.run σ = _)]
  exact hx σ

/-- A part that cannot fail tells of what comes on top of the events. -/
theorem tells_lift {x : StateM (Session γ) α}
    (hx : ∀ σ, ∃ es, (x.run σ).2.events = es ++ σ.events ∧ ∀ e ∈ es, P e) :
    Tells P (liftM x : Run γ α) := by
  intro σ
  rw [(ends_lift rfl : (liftM x : Run γ α).run.run σ = _)]
  exact hx σ

end Run

/-! ### Numbers that fit -/

/-- An event is **narrow** unless it tells of a number that no signed 32-bit word has. -/
def Event.Narrow : Event → Prop
  | .numbered v => v < 2147483648
  | _ => True

instance : DecidablePred Event.Narrow := fun e =>
  match e with
  | .numbered v => inferInstanceAs (Decidable (v < 2147483648))
  | .solved _ | .agendaExtended .. | .inputConstrained _ | .outputConstrained _
  | .judgmentAdded .. | .constraintsUnsatisfiable | .firstBound .. | .newBound ..
  | .optimalValue .. | .comparingOutcomes _ | .admissibleFound _ | .optimizing _
  | .objectivesCounted .. | .outcomesSelected .. => .isTrue trivial

namespace Session

variable {γ : Type} {σ σ' σ'' : Session γ}

/-- The events in a session that come after those of an earlier one. -/
def since (σ σ' : Session γ) : List Event :=
  σ'.events.take (σ'.events.length - σ.events.length)

theorem since_eq {es : List Event} (h : σ'.events = es ++ σ.events) : σ.since σ' = es := by
  rw [since, h]
  exact List.take_left' (by simp)

/-- What comes after an earlier session comes first in what comes after a later one. -/
theorem since_subset_left {es : List Event} (h : σ''.events = es ++ σ'.events) :
    σ.since σ' ⊆ σ.since σ'' := by
  rw [since, since, h, List.take_append, List.length_append]
  intro e he
  refine List.mem_append.2 (.inr ?_)
  rwa [show es.length + σ'.events.length - σ.events.length - es.length =
    σ'.events.length - σ.events.length by omega]

/-- Some events on, the events since then are among those since earlier. -/
theorem since_subset_right {es : List Event} (h : σ'.events = es ++ σ.events) :
    σ'.since σ'' ⊆ σ.since σ'' := by
  refine List.take_subset_take_left _ ?_
  rw [h, List.length_append]
  omega

end Session

namespace Run

variable {γ α β : Type} {x : Run γ α} {f : α → Run γ β} {a : α} {r : Result α} {e : Event}
  {σ σ' : Session γ}

/-- The numbers that encoders use in a computation **fit** signed 32-bit words. -/
def Fits (x : Run γ α) (σ : Session γ) : Prop :=
  ∀ e ∈ σ.since (x.run.run σ).2, e.Narrow

instance : Decidable (x.Fits σ) :=
  inferInstanceAs (Decidable (∀ e ∈ _, Event.Narrow e))

/-- Whether a computation fits shows in the session that it leaves. -/
theorem Ends.fits_iff (h : x.Ends σ r σ') : x.Fits σ ↔ ∀ e ∈ σ.since σ', e.Narrow := by
  rw [Fits, h]

/-- A computation that tells only of narrow events fits. -/
theorem Tells.fits (h : x.Tells Event.Narrow) (σ : Session γ) : x.Fits σ := by
  obtain ⟨es, hes, hnarrow⟩ := h σ
  rw [Fits, Session.since_eq hes]
  exact hnarrow

/-- The numbers fit in the first part of a computation. -/
theorem Fits.left (h : (x >>= f).Fits σ) (hf : ∀ a, (f a).Keeps) : x.Fits σ := by
  rw [Fits, run_bind] at h
  rcases hrun : x.run.run σ with ⟨e | a, σ'⟩ <;> rw [hrun] at h <;> rw [Fits, hrun]
  · exact h
  · obtain ⟨es, hes, -⟩ := hf a σ'
    exact fun e he => h e (Session.since_subset_left hes he)

/-- The numbers fit in the rest of a computation. -/
theorem Fits.right (h : (x >>= f).Fits σ) (hx : x.Keeps) (hends : x.Ends σ (.ok a) σ') :
    (f a).Fits σ' := by
  obtain ⟨es, hes, -⟩ := hx σ
  rw [Fits, run_bind, hends] at h
  rw [hends] at hes
  exact fun e he => h e (Session.since_subset_right hes he)

/-- After a result that needs no session, the rest of a computation fits as well. -/
theorem Fits.of_ofResult {r : Result α} (h : (ofResult r >>= f).Fits σ) (hr : r = .ok a) :
    (f a).Fits σ :=
  h.right (tells_ofResult r) (ends_ok hr σ)

/-- After an event, the rest of a computation fits as well. -/
theorem Fits.of_record {f : Unit → Run γ β} (h : (record e >>= f).Fits σ) :
    (f ()).Fits ⟨σ.memory, e :: σ.events⟩ :=
  h.right (tells_record trivial) (ends_record e σ)

/-- A number that is told of fits. -/
theorem Fits.narrow {f : Unit → Run γ β} (h : (record e >>= f).Fits σ) (hf : (f ()).Keeps) :
    e.Narrow := by
  refine (ends_record e σ).fits_iff.1 (h.left fun _ => hf) e ?_
  rw [Session.since_eq (rfl : _ = [e] ++ _)]
  exact List.mem_singleton_self e

/-- A context changes nothing about the numbers. -/
theorem fits_inContext (c : Context) : (x.inContext c).Fits σ ↔ x.Fits σ := by
  rw [(Ends.inContext (x := x) (σ := σ) rfl c).fits_iff]
  rfl

end Run

/-- A solving call comes after those before it. -/
@[simp] theorem Session.calls_solved {γ : Type} (memory : γ) (c : Call) (events : List Event) :
    Session.calls ⟨memory, .solved c :: events⟩ = Session.calls ⟨memory, events⟩ ++ [c] := by
  simp [Session.calls, Event.calls]

/-- What is found **settles** a query when it is a model of it, or nothing and there is none. -/
def Query.Settled (q : Query) : Option Model → Prop
  | some m => q.eval m.valuation = true
  | none => ∀ A, q.eval A = false

namespace Solver

variable {γ : Type} {B : Backend γ}

/-- The clauses added last come first. -/
theorem clauses_addAll (F : Cnf Nat) (s : Solver) :
    (s.addAll F).clauses = F.reverse ++ s.clauses := by
  rw [addAll]
  induction F generalizing s with
  | nil => rfl
  | cons c F ih => rw [List.foldl_cons, ih, List.reverse_cons, List.append_assoc]; rfl

theorem eval_addAll (N : Valuation Nat) (F : Cnf Nat) (s : Solver) :
    Cnf.eval N (s.addAll F).clauses = (F.eval N && Cnf.eval N s.clauses) := by
  rw [clauses_addAll, Cnf.eval, List.all_append, List.all_reverse]
  rfl

theorem eval_add (N : Valuation Nat) (c : Clause Nat) (s : Solver) :
    Cnf.eval N (s.add c).clauses = (c.eval N && Cnf.eval N s.clauses) :=
  rfl

/-- A solving call passes the answer of the backend on and is recorded. -/
theorem run_solve (B : Backend γ) (as : List (Literal Nat)) (s : Solver) (σ : Session γ) :
    ∃ s' σ' c, (s.solve B as).run σ = (((B.answer ⟨s.clauses, as⟩ σ.memory).1, s'), σ') ∧
      s'.clauses = s.clauses ∧ σ'.calls = σ.calls ++ [c] ∧
      c.verdict = (B.answer ⟨s.clauses, as⟩ σ.memory).1.verdict :=
  ⟨_, _, _, rfl, rfl, Session.calls_solved _ _ _, rfl⟩

/-- A solving call tells of itself. -/
theorem tells_solve {P : Event → Prop} (hP : ∀ c, P (.solved c)) (as : List (Literal Nat))
    (s : Solver) : Run.Tells P (liftM (s.solve B as) : Run γ (Answer × Solver)) :=
  Run.tells_lift fun _ => ⟨[_], rfl, List.forall_mem_singleton.2 (hP _)⟩

/-- What a solving call finds settles its query. -/
theorem settled_of_solve (hsound : B.Sound) {as : List (Literal Nat)} {s s' : Solver}
    {σ σ' : Session γ} {answer : Answer} {found : Option Model}
    (hrun : (s.solve B as).run σ = ((answer, s'), σ')) (hfound : answer.model? = .ok found) :
    Query.Settled ⟨s.clauses, as⟩ found := by
  have htrue := hsound ⟨s.clauses, as⟩ σ.memory
  cases hrun
  cases h : (B.answer ⟨s.clauses, as⟩ σ.memory).1 <;> rw [h] at hfound htrue <;> cases hfound <;>
    exact htrue

/-- A solving call settles its query and keeps the clauses. -/
theorem solve_spec (hsound : B.Sound) (hcomplete : B.Complete) (as : List (Literal Nat))
    (s : Solver) (σ : Session γ) :
    ∃ answer s' σ' found, (s.solve B as).run σ = ((answer, s'), σ') ∧ s'.clauses = s.clauses ∧
      answer.model? = .ok found ∧ Query.Settled ⟨s.clauses, as⟩ found := by
  have hdefinite := hcomplete ⟨s.clauses, as⟩ σ.memory
  obtain ⟨found, hfound⟩ : ∃ found, (B.answer ⟨s.clauses, as⟩ σ.memory).1.model? = .ok found := by
    cases h : (B.answer ⟨s.clauses, as⟩ σ.memory).1 with
    | unknown => exact absurd h hdefinite
    | sat m => exact ⟨some m, rfl⟩
    | unsat => exact ⟨none, rfl⟩
  exact ⟨_, _, _, found, rfl, rfl, hfound, settled_of_solve hsound rfl hfound⟩

end Solver

end JudgmentAggregation
