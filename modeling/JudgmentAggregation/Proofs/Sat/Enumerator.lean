import JudgmentAggregation.Proofs.Session
import JudgmentAggregation.Sat.Enumerator
import Mathlib.Data.List.Perm.Subperm

/-!
# What an enumerator lists

With a sound and complete backend, the calls of an enumerator list the views of the models of its
clauses, each exactly once, and then nothing more (`Enumerator.exists_lists`). The invariant is the
set of the views that **remain** to be listed: a call returns one of them and takes it away, or
there is none, or the backend gives up (`Enumerator.next_spec`). There are finitely many views of a
projection, so every run ends, in one of two ways (`Enumerator.exists_course`), and reading a list
to its end takes fewer calls than `Enumerator.bound`. A call makes one solving call as long as the
list has not ended.
-/

namespace JudgmentAggregation

namespace Enumerator

variable {γ : Type} {B : Backend γ} {e e' : Enumerator} {σ σ' : Session γ} {m : NamedModel}
  {ms : List NamedModel} {N : Valuation Nat}

/-- What a valuation looks like on a projection. -/
def view (projection : List (String × Nat)) (N : Valuation Nat) : NamedModel :=
  projection.map fun p => (p.1, N p.2)

/-- What the next `n` calls return. -/
def answers (B : Backend γ) : (n : Nat) → Enumerator → Session γ → List (Option (Result NamedModel))
  | 0, _, _ => []
  | n + 1, e, σ =>
    let ((item, e), σ) := (e.next B).run σ
    item :: answers B n e σ

/-- What `n` calls return that go through some models and then find nothing more. -/
def listing : (n : Nat) → List NamedModel → List (Option (Result NamedModel))
  | 0, _ => []
  | n + 1, [] => none :: listing n []
  | n + 1, m :: ms => some (.ok m) :: listing n ms

/-- The calls of an enumerator **list** some models: the calls return one after the other and then,
however many there are, nothing more. -/
def Lists (B : Backend γ) (e : Enumerator) (σ : Session γ) (ms : List NamedModel) : Prop :=
  ∀ n, answers B n e σ = listing n ms

/-- The views that remain to be listed. -/
def Remaining (e : Enumerator) (m : NamedModel) : Prop :=
  e.exhausted = false ∧ ∃ N, Cnf.eval N e.solver.clauses = true ∧ view e.projection N = m

/-! ### One call -/

theorem run_next_of_exhausted (B : Backend γ) (h : e.exhausted = true) (σ : Session γ) :
    (e.next B).run σ = ((none, e), σ) := by
  simp only [next, h, if_true]
  rfl

/-- What the next item is depends on the answer of the backend. -/
theorem run_next {answer : Answer} {s : Solver} (h : e.exhausted = false)
    (hrun : (e.solver.solve B []).run σ = ((answer, s), σ')) :
    (e.next B).run σ = ((match answer.model? with
      | .ok none => (none, { e with solver := s, exhausted := true })
      | .error err => (some (.error err), { e with solver := s, exhausted := true })
      | .ok (some m) => (some (.ok (view e.projection m.valuation)),
          if e.projection.isEmpty then { e with solver := s, exhausted := true }
          else { e with solver := s.add (blocking e.projection m) })), σ') := by
  simp only [next, h, Bool.false_eq_true, if_false, StateT.run_bind, hrun]
  show StateT.run _ _ = _
  rcases answer.model? with err | _ | m
  · rfl
  · rfl
  · cases e.projection.isEmpty <;> rfl

/-- All that a call of an enumerator tells of are solving calls. -/
theorem next_tells {P : Event → Prop} (hP : ∀ c, P (.solved c)) (B : Backend γ) (e : Enumerator) :
    Run.Tells P (liftM (e.next B) : Run γ (Option (Result NamedModel) × Enumerator)) := by
  refine Run.tells_lift fun σ => ?_
  cases h : e.exhausted with
  | true =>
    rw [run_next_of_exhausted B h]
    exact ⟨[], rfl, List.forall_mem_nil _⟩
  | false =>
    rw [run_next h rfl]
    exact ⟨[_], rfl, List.forall_mem_singleton.2 (hP _)⟩

theorem take_tells {P : Event → Prop} (hP : ∀ c, P (.solved c)) (B : Backend γ) (n : Nat)
    (e : Enumerator) : (e.take B n).Tells P := by
  induction n generalizing e with
  | zero => exact Run.tells_pure _
  | succ n ih =>
    refine (next_tells hP B e).bind fun ⟨item, e'⟩ => ?_
    rcases item with _ | item
    · exact Run.tells_pure _
    · exact (Run.tells_ofResult item).bind fun _ => (ih e').bind fun _ => Run.tells_pure _

theorem toList_tells {P : Event → Prop} (hP : ∀ c, P (.solved c)) (B : Backend γ)
    (e : Enumerator) : (e.toList B).Tells P :=
  (take_tells hP B e.bound e).bind fun _ => Run.tells_pure _

/-- The blocking clause of a model is false exactly where the view is that of the model. -/
theorem eval_blocking (projection : List (String × Nat)) (m : Model) (N : Valuation Nat) :
    Clause.eval N (blocking projection m) = true ↔
      view projection N ≠ view projection m.valuation := by
  rw [Clause.eval, List.any_eq_true, ne_eq, view, view, List.map_inj_left]
  simp only [blocking, List.mem_map]
  constructor
  · rintro ⟨l, ⟨p, hp, rfl⟩, hl⟩ h
    have hN : N p.2 = m.valuation p.2 := (Prod.mk.inj (h p hp)).2
    simp [Literal.eval, hN] at hl
  · intro h
    obtain ⟨p, hp, hN⟩ : ∃ p ∈ projection, N p.2 ≠ m.valuation p.2 := by
      by_contra hne
      exact h fun p hp => by rw [not_not.1 fun hN => hne ⟨p, hp, hN⟩]
    exact ⟨_, ⟨p, hp, rfl⟩, by simpa [Literal.eval, Bool.eq_not] using hN⟩

/-- What one call of an enumerator that has not ended does, by the verdict of its solving call. -/
inductive Step (e : Enumerator) : Verdict → Option (Result NamedModel) → Enumerator → Prop
  /-- Nothing remains. -/
  | ended {e' : Enumerator} (hnone : ∀ m, ¬ e.Remaining m) (he' : e'.exhausted = true) :
    Step e .unsatisfiable none e'
  /-- A remaining view is returned and taken away. On the empty projection it is the only one. -/
  | listed {e' : Enumerator} {m : NamedModel} (hm : e.Remaining m)
    (hrest : ∀ m', e'.Remaining m' ↔ e.Remaining m' ∧ m' ≠ m)
    (hprojection : e'.projection = e.projection) (he' : e'.exhausted = e.projection.isEmpty) :
    Step e .satisfiable (some (.ok m)) e'
  /-- The backend gives up. -/
  | failed {e' : Enumerator} (he' : e'.exhausted = true) :
    Step e .unknown (some (.error (.ofCause .noAnswer))) e'

/-- A view that is blocked does not remain, and the others do. -/
theorem remaining_blocked_iff (hex : e.exhausted = false) {s : Solver}
    (hs : s.clauses = e.solver.clauses) (m : Model) (m' : NamedModel) :
    Remaining { e with solver := s.add (blocking e.projection m) } m' ↔
      e.Remaining m' ∧ m' ≠ view e.projection m.valuation := by
  simp only [Remaining, hex, Solver.add, hs, true_and]
  constructor
  · rintro ⟨N, hN, rfl⟩
    rw [Cnf.eval, List.all_cons, Bool.and_eq_true, eval_blocking] at hN
    exact ⟨⟨N, hN.2, rfl⟩, hN.1⟩
  · rintro ⟨⟨N, hN, rfl⟩, hne⟩
    refine ⟨N, ?_, rfl⟩
    rw [Cnf.eval, List.all_cons, Bool.and_eq_true, eval_blocking]
    exact ⟨hne, hN⟩

/-- On the empty projection there is one view only. -/
theorem eq_nil_of_remaining (hp : e.projection.isEmpty = true) (hm : e.Remaining m) : m = [] := by
  obtain ⟨-, N, -, rfl⟩ := hm
  rw [List.isEmpty_iff.1 hp]
  rfl

/-- A call of an enumerator that has not ended makes one solving call and goes on by its verdict. -/
theorem next_spec (hsound : B.Sound) (hex : e.exhausted = false) (σ : Session γ) :
    ∃ item e' σ' c, (e.next B).run σ = ((item, e'), σ') ∧ σ'.calls = σ.calls ++ [c] ∧
      (B.Complete → c.verdict ≠ .unknown) ∧ e.Step c.verdict item e' := by
  obtain ⟨s, σ', c, hrun, hs, hcalls, hc⟩ := e.solver.run_solve B [] σ
  have htrue := hsound ⟨e.solver.clauses, []⟩ σ.memory
  have hdefinite (hcomplete : B.Complete) := hcomplete ⟨e.solver.clauses, []⟩ σ.memory
  have hnext := run_next hex hrun
  refine ⟨_, _, σ', c, hnext, hcalls, fun hcomplete => ?_, ?_⟩
  · rw [hc]
    cases h : (B.answer ⟨e.solver.clauses, []⟩ σ.memory).1 with
    | unknown => exact absurd h (hdefinite hcomplete)
    | sat m => nofun
    | unsat => nofun
  · rw [hc]
    cases h : (B.answer ⟨e.solver.clauses, []⟩ σ.memory).1 with
    | unknown => exact .failed rfl
    | unsat =>
      rw [h] at htrue
      refine .ended ?_ rfl
      rintro m ⟨-, N, hN, -⟩
      simpa [Query.eval, hN] using htrue N
    | sat m =>
      rw [h] at htrue
      have hm : Cnf.eval m.valuation e.solver.clauses = true := by
        simpa [Answer.TrueOf, Query.eval] using htrue
      have hremaining : e.Remaining (view e.projection m.valuation) := ⟨hex, _, hm, rfl⟩
      cases hp : e.projection.isEmpty with
      | true =>
        -- There is one view only of the empty projection, so nothing remains behind it.
        refine .listed hremaining (fun m' => ⟨fun hm' => ?_, fun ⟨hm', hne⟩ => ?_⟩) rfl hp.symm
        · exact absurd hm'.1 (by simp [Answer.model?])
        · exact absurd ((eq_nil_of_remaining hp hm').trans
            (eq_nil_of_remaining hp hremaining).symm) hne
      | false => exact .listed hremaining (remaining_blocked_iff hex hs m) rfl (hex.trans hp.symm)

/-! ### The whole list -/

theorem answers_succ {item : Option (Result NamedModel)}
    (hrun : (e.next B).run σ = ((item, e'), σ')) (n : Nat) :
    answers B (n + 1) e σ = item :: answers B n e' σ' := by
  rw [answers, hrun]

theorem Lists.cons (hrun : (e.next B).run σ = ((some (.ok m), e'), σ')) (h : Lists B e' σ' ms) :
    Lists B e σ (m :: ms) := by
  intro n
  cases n with
  | zero => rfl
  | succ n => rw [answers_succ hrun, listing, h n]

/-- The first call of an enumerator that lists nothing returns nothing. -/
theorem Lists.next_nil (h : Lists B e σ []) : ∃ e' σ', (e.next B).run σ = ((none, e'), σ') := by
  rcases hrun : (e.next B).run σ with ⟨⟨item, e'⟩, σ'⟩
  have hitem := h 1
  rw [answers_succ hrun, listing] at hitem
  obtain rfl : item = none := (List.cons.inj hitem).1
  exact ⟨e', σ', rfl⟩

/-- The first call of an enumerator returns the first model that it lists, the later calls list the
others. -/
theorem Lists.next_cons (h : Lists B e σ (m :: ms)) :
    ∃ e' σ', (e.next B).run σ = ((some (.ok m), e'), σ') ∧ Lists B e' σ' ms := by
  rcases hrun : (e.next B).run σ with ⟨⟨item, e'⟩, σ'⟩
  have hitems (n : Nat) : item = some (.ok m) ∧ answers B n e' σ' = listing n ms := by
    have hn := h (n + 1)
    rw [answers_succ hrun, listing] at hn
    exact List.cons.inj hn
  obtain rfl := (hitems 0).1
  exact ⟨e', σ', rfl, fun n => (hitems n).2⟩

/-! ### Whole runs -/

/-- What `n` calls return that go through some models, then fail, and then return nothing more. -/
def failing : (n : Nat) → List NamedModel → List (Option (Result NamedModel))
  | 0, _ => []
  | n + 1, [] => some (.error (.ofCause .noAnswer)) :: listing n []
  | n + 1, m :: ms => some (.ok m) :: failing n ms

/-- The calls of an enumerator **fail** behind some models. -/
def Fails (B : Backend γ) (e : Enumerator) (σ : Session γ) (ms : List NamedModel) : Prop :=
  ∀ n, answers B n e σ = failing n ms

/-- The solving calls that the next `n` calls make. -/
def solvingCalls (B : Backend γ) : (n : Nat) → Enumerator → Session γ → List Call
  | 0, _, _ => []
  | n + 1, e, σ =>
    let ((_, e), σ') := (e.next B).run σ
    σ'.calls.drop σ.calls.length ++ solvingCalls B n e σ'

/-- The verdicts of the solving calls that the next `n` calls make. -/
def verdicts (B : Backend γ) (n : Nat) (e : Enumerator) (σ : Session γ) : List Verdict :=
  (solvingCalls B n e σ).map Call.verdict

/-- The verdicts of the solving calls that find some models and see that there are no others. On the
empty projection a model is known to be the only one. -/
def verdictsOf (e : Enumerator) (ms : List NamedModel) : List Verdict :=
  if e.projection.isEmpty && !ms.isEmpty then [.satisfiable]
  else List.replicate ms.length .satisfiable ++ [.unsatisfiable]

/-- The verdicts of the solving calls that find some models until one is given up. -/
def failedVerdicts (ms : List NamedModel) : List Verdict :=
  List.replicate ms.length .satisfiable ++ [.unknown]

theorem verdicts_succ {item : Option (Result NamedModel)} {c : Call}
    (hrun : (e.next B).run σ = ((item, e'), σ')) (hcalls : σ'.calls = σ.calls ++ [c]) (n : Nat) :
    verdicts B (n + 1) e σ = c.verdict :: verdicts B n e' σ' := by
  rw [verdicts, solvingCalls, hrun]
  simp [hcalls, verdicts]

/-- An enumerator that has ended returns nothing and solves nothing. -/
theorem ended_spec (hex : e.exhausted = true) (n : Nat) (σ : Session γ) :
    answers B n e σ = listing n [] ∧ verdicts B n e σ = [] := by
  induction n with
  | zero => exact ⟨rfl, rfl⟩
  | succ n ih =>
    have hrun := run_next_of_exhausted B hex σ
    refine ⟨by rw [answers_succ hrun, ih.1, listing], ?_⟩
    rw [verdicts, solvingCalls, hrun, List.map_append, ← verdicts, ih.2]
    simp

/-- How a run of an enumerator that has not ended goes, with the models that it returns. -/
inductive Course (B : Backend γ) (e : Enumerator) (σ : Session γ) (ms : List NamedModel) : Prop
  /-- All that remains is returned. -/
  | complete (hall : ∀ m, e.Remaining m → m ∈ ms) (hlists : Lists B e σ ms)
    (hverdicts : ∀ n, verdicts B n e σ = (e.verdictsOf ms).take n)
  /-- A solving call is given up behind the models. -/
  | failed (hincomplete : ¬ B.Complete) (hfails : Fails B e σ ms)
    (hverdicts : ∀ n, verdicts B n e σ = (failedVerdicts ms).take n)

theorem Fails.cons (hrun : (e.next B).run σ = ((some (.ok m), e'), σ')) (h : Fails B e' σ' ms) :
    Fails B e σ (m :: ms) := by
  intro n
  cases n with
  | zero => rfl
  | succ n => rw [answers_succ hrun, failing, h n]

section Ended

variable {item : Option (Result NamedModel)} {c : Call}
  (hrun : (e.next B).run σ = ((item, e'), σ')) (hcalls : σ'.calls = σ.calls ++ [c])
  (he' : e'.exhausted = true)

include hrun he'

/-- After a call that ends the list, nothing more is returned. -/
theorem answers_of_ended (n : Nat) : answers B (n + 1) e σ = item :: listing n [] := by
  rw [answers_succ hrun, (ended_spec he' n σ').1]

include hcalls in
/-- After a call that ends the list, there are no more solving calls. -/
theorem verdicts_of_ended (n : Nat) : verdicts B n e σ = [c.verdict].take n := by
  cases n with
  | zero => rfl
  | succ n => rw [verdicts_succ hrun hcalls, (ended_spec he' n σ').2, List.take_succ_cons,
      List.take_nil]

end Ended

/-- A run that finds nothing. -/
theorem Course.of_none {c : Call} (hrun : (e.next B).run σ = ((none, e'), σ'))
    (hcalls : σ'.calls = σ.calls ++ [c]) (hc : c.verdict = .unsatisfiable)
    (hnone : ∀ m, ¬ e.Remaining m) (he' : e'.exhausted = true) : Course B e σ [] := by
  refine .complete (fun m hm => absurd hm (hnone m)) (fun n => ?_) fun n => ?_
  · cases n with
    | zero => rfl
    | succ n => rw [answers_of_ended hrun he', listing]
  · rw [verdicts_of_ended hrun hcalls he', hc, verdictsOf]
    simp

/-- A run whose first solving call is given up. -/
theorem Course.of_error {c : Call}
    (hrun : (e.next B).run σ = ((some (.error (.ofCause .noAnswer)), e'), σ'))
    (hcalls : σ'.calls = σ.calls ++ [c]) (hc : c.verdict = .unknown) (hincomplete : ¬ B.Complete)
    (he' : e'.exhausted = true) : Course B e σ [] := by
  refine .failed hincomplete (fun n => ?_) fun n => ?_
  · cases n with
    | zero => rfl
    | succ n => rw [answers_of_ended hrun he', failing]
  · rw [verdicts_of_ended hrun hcalls he', hc]
    rfl

/-- A run on the empty projection that finds its model. -/
theorem Course.of_single {c : Call} (hrun : (e.next B).run σ = ((some (.ok m), e'), σ'))
    (hcalls : σ'.calls = σ.calls ++ [c]) (hc : c.verdict = .satisfiable)
    (hp : e.projection.isEmpty = true) (hm : e.Remaining m) (he' : e'.exhausted = true) :
    Course B e σ [m] := by
  refine .complete (fun m' hm' => ?_) (fun n => ?_) fun n => ?_
  · rw [eq_nil_of_remaining hp hm', eq_nil_of_remaining hp hm]
    exact List.mem_cons_self
  · cases n with
    | zero => rfl
    | succ n => rw [answers_of_ended hrun he', listing]
  · rw [verdicts_of_ended hrun hcalls he', hc, verdictsOf, hp]
    rfl

/-- A run whose first call returns a model on a projection that is not empty. -/
theorem Course.cons {c : Call} (hrun : (e.next B).run σ = ((some (.ok m), e'), σ'))
    (hcalls : σ'.calls = σ.calls ++ [c]) (hc : c.verdict = .satisfiable)
    (hp : e.projection.isEmpty = false) (hprojection : e'.projection = e.projection)
    (hrest : ∀ m', e'.Remaining m' ↔ e.Remaining m' ∧ m' ≠ m) (h : Course B e' σ' ms) :
    Course B e σ (m :: ms) := by
  have hfirst {vs : List Verdict} (h : ∀ n, verdicts B n e' σ' = vs.take n) (n : Nat) :
      verdicts B n e σ = (.satisfiable :: vs).take n := by
    cases n with
    | zero => rfl
    | succ n => rw [verdicts_succ hrun hcalls, hc, h n, List.take_succ_cons]
  cases h with
  | complete hall hlists hverdicts =>
    refine .complete (fun m' hm' => ?_) (.cons hrun hlists) fun n => ?_
    · by_cases hne : m' = m
      · exact hne ▸ List.mem_cons_self
      · exact List.mem_cons_of_mem _ (hall m' ((hrest m').2 ⟨hm', hne⟩))
    · rw [hfirst hverdicts, verdictsOf, verdictsOf, hprojection, hp]
      rfl
  | failed hincomplete hfails hverdicts =>
    exact .failed hincomplete (.cons hrun hfails) (hfirst hverdicts)

/-- Every run takes its course. The induction is on the length of a list of views that contains all
those that remain: each call takes one of them away. -/
theorem exists_course_of_subset (hsound : B.Sound) (hex : e.exhausted = false)
    (L : List NamedModel) (hL : ∀ m, e.Remaining m → m ∈ L) (σ : Session γ) :
    ∃ ms, Course B e σ ms ∧ ms.Nodup ∧ ∀ m ∈ ms, e.Remaining m := by
  induction hn : L.length using Nat.strongRecOn generalizing e L σ with
  | ind n ih =>
    obtain ⟨item, e', σ', c, hrun, hcalls, hdefinite, hstep⟩ := e.next_spec hsound hex σ
    generalize hc : c.verdict = v at hdefinite hstep
    cases hstep with
    | ended hnone he' =>
      exact ⟨[], .of_none hrun hcalls hc hnone he', .nil, List.forall_mem_nil _⟩
    | failed he' =>
      exact ⟨[], .of_error hrun hcalls hc (fun h => hdefinite h rfl) he', .nil,
        List.forall_mem_nil _⟩
    | @listed _ m hm hrest hprojection he' =>
      cases hp : e.projection.isEmpty with
      | true =>
        exact ⟨[m], .of_single hrun hcalls hc hp hm (he'.trans hp), List.pairwise_singleton _ m,
          List.forall_mem_singleton.2 hm⟩
      | false =>
        have hlength : (L.erase m).length < n := by
          have hpos := List.length_pos_of_mem (hL m hm)
          rw [List.length_erase_of_mem (hL m hm)]
          omega
        have hsubset : ∀ m', e'.Remaining m' → m' ∈ L.erase m := fun m' hm' =>
          (List.mem_erase_of_ne ((hrest m').1 hm').2).2 (hL m' ((hrest m').1 hm').1)
        obtain ⟨ms, hms, hnodup, hmem⟩ := ih _ hlength (he'.trans hp) _ hsubset σ' rfl
        exact ⟨m :: ms, hms.cons hrun hcalls hc hp hprojection hrest,
          List.nodup_cons.2 ⟨fun h => ((hrest m).1 (hmem m h)).2 rfl, hnodup⟩,
          List.forall_mem_cons.2 ⟨hm, fun m' hm' => ((hrest m').1 (hmem m' hm')).1⟩⟩

/-- All the views of a projection. -/
def views : List (String × Nat) → List NamedModel
  | [] => [[]]
  | p :: projection => (views projection).flatMap fun m => [(p.1, false) :: m, (p.1, true) :: m]

/-- What a valuation looks like is one of the views. -/
theorem view_mem_views (projection : List (String × Nat)) (N : Valuation Nat) :
    view projection N ∈ views projection := by
  induction projection with
  | nil => exact List.mem_singleton_self []
  | cons p projection ih =>
    refine List.mem_flatMap.2 ⟨_, ih, ?_⟩
    cases h : N p.2 <;> simp [view, h]

theorem length_views (projection : List (String × Nat)) :
    (views projection).length = Nat.pow 2 projection.length := by
  induction projection with
  | nil => rfl
  | cons p projection ih =>
    have hlength : Nat.pow 2 (p :: projection).length = Nat.pow 2 projection.length * 2 := rfl
    rw [views, List.length_flatMap, hlength, ← ih]
    simp

/-- Every run of an enumerator that has not ended takes its course. -/
theorem exists_course (hsound : B.Sound) (hex : e.exhausted = false) (σ : Session γ) :
    ∃ ms, Course B e σ ms ∧ ms.Nodup ∧ ∀ m ∈ ms, e.Remaining m :=
  exists_course_of_subset hsound hex (views e.projection)
    (fun _ ⟨_, N, _, hm⟩ => hm ▸ view_mem_views e.projection N) σ

/-- **An enumerator loses and repeats nothing.** -/
theorem exists_lists (hsound : B.Sound) (hcomplete : B.Complete) (e : Enumerator) (σ : Session γ) :
    ∃ ms, Lists B e σ ms ∧ ms.Nodup ∧ ∀ m, m ∈ ms ↔ e.Remaining m := by
  cases hex : e.exhausted with
  | true =>
    have hnone : ∀ m, ¬ e.Remaining m := fun m hm => by simp [hm.1] at hex
    exact ⟨[], fun n => (ended_spec hex n σ).1, .nil, fun m => by simp [hnone m]⟩
  | false =>
    obtain ⟨ms, hcourse, hnodup, hmem⟩ := exists_course hsound hex σ
    cases hcourse with
    | complete hall hlists => exact ⟨ms, hlists, hnodup, fun m => ⟨hmem m, hall m⟩⟩
    | failed hincomplete => exact absurd hcomplete hincomplete

/-- Reading an enumerator beyond its end gives the list. -/
theorem Lists.take (h : Lists B e σ ms) {n : Nat} (hn : ms.length < n) :
    ∃ e' σ', (e.take B n).Ends σ (.ok (ms, e')) σ' := by
  induction n generalizing e σ ms with
  | zero => exact absurd hn (Nat.not_lt_zero _)
  | succ n ih =>
    cases ms with
    | nil =>
      obtain ⟨e', σ', hrun⟩ := h.next_nil
      exact ⟨e', σ', (Run.ends_lift hrun).bind (Run.ends_pure _ _)⟩
    | cons m ms =>
      obtain ⟨e', σ', hrun, hms⟩ := h.next_cons
      obtain ⟨e'', σ'', hends⟩ := ih hms (Nat.lt_of_succ_lt_succ hn)
      exact ⟨e'', σ'', (Run.ends_lift hrun).bind
        ((Run.ends_ofResult _ _).bind (hends.bind (Run.ends_pure _ _)))⟩

/-- Reading an enumerator to its end gives the list. -/
theorem Lists.toList (h : Lists B e σ ms) (hnodup : ms.Nodup) (hmem : ∀ m ∈ ms, e.Remaining m) :
    ∃ σ', (e.toList B).Ends σ (.ok ms) σ' := by
  have hsubset : ms ⊆ views e.projection := fun m hm => by
    obtain ⟨-, N, -, rfl⟩ := hmem m hm
    exact view_mem_views e.projection N
  have hlength : ms.length < e.bound := by
    rw [bound, ← length_views]
    exact Nat.lt_succ_of_le (List.subperm_of_subset hnodup hsubset).length_le
  obtain ⟨e', σ', hends⟩ := h.take hlength
  exact ⟨σ', hends.bind (Run.ends_pure _ _)⟩

end Enumerator

end JudgmentAggregation
