import JudgmentAggregation.Proofs.Bound.Constraint
import JudgmentAggregation.Proofs.Bound.Threshold

/-!
# Bounds one after the other

A solver may be given any number of bounds on the same variables, each with clauses and auxiliary
variables of its own. A valuation of these variables extends to a model of all the clauses exactly
if it meets all the bounds whose guards are true, and no two bounds share an auxiliary variable
(`Store.requireAll_exact`). Of the variables it is required that they are narrow, the auxiliary ones
included: from 2³¹ on, they are others than meant.

Whichever way a bound is added (`Store.Posts`), the store grows by clauses about the variables of
the bound and about new ones (`Store.Grows`).
-/

namespace JudgmentAggregation

/-- The sides from which a sum can be bounded. -/
inductive Side where
  | atLeast
  | atMost

/-- A value **keeps** to a bound on a side. -/
def Side.Keeps (value bound : Nat) : Side → Prop
  | atLeast => bound ≤ value
  | atMost => value ≤ bound

instance (value bound : Nat) (side : Side) : Decidable (side.Keeps value bound) :=
  match side with
  | .atLeast => inferInstanceAs (Decidable (bound ≤ value))
  | .atMost => inferInstanceAs (Decidable (value ≤ bound))

/-- A bound on a weighted sum that is to be required where a guard is true. -/
structure Requirement where
  side : Side
  terms : List (Term Nat)
  bound : Nat
  guard : Option (Literal Nat)

namespace Requirement

/-- A valuation **meets** a requirement when the sum keeps to the bound, unless the guard is
false. -/
def Meets (N : Valuation Nat) (r : Requirement) : Prop :=
  Store.Active r.guard N → r.side.Keeps (Term.value N r.terms) r.bound

instance (N : Valuation Nat) (r : Requirement) : Decidable (r.Meets N) :=
  have : Decidable (Store.Active r.guard N) :=
    decidable_of_iff (r.guard.all (·.eval N) = true) (by
      cases hguard : r.guard <;> simp [Store.Active])
  inferInstanceAs (Decidable (_ → _))

/-- A requirement is **over** the first `n` variables when its terms and its guard are. -/
structure Over (n : Nat) (r : Requirement) : Prop where
  terms : ∀ t ∈ r.terms, 0 < t.literal.var ∧ t.literal.var ≤ n
  guard : ∀ g, r.guard = some g → g.var ≤ n

/-- Whether a requirement is met depends on its variables only. -/
theorem Over.meets {n : Nat} {r : Requirement} {N N' : Valuation Nat} (h : r.Over n)
    (hN : ∀ v ≤ n, N' v = N v) (hr : r.Meets N) : r.Meets N' := by
  have hactive : Store.Active r.guard N' → Store.Active r.guard N := fun hact g hguard => by
    have heval := hact g hguard
    rwa [Literal.eval, hN _ (h.guard g hguard)] at heval
  have hvalue : Term.value N' r.terms = Term.value N r.terms :=
    Term.value_congr fun t ht => hN _ (h.terms t ht).2
  rw [Meets, hvalue]
  exact fun hact => hr (hactive hact)

end Requirement

namespace Store

variable {γ : Type} {s s' : Store} {E : BoundEncoder} {ts : List (Term Nat)} {n : Nat}
  {guard : Option (Literal Nat)} {r : Requirement} {rs : List Requirement} {σ : Session γ}

/-- Adds a requirement. -/
def require (E : BoundEncoder) (r : Requirement) (s : Store) : Run γ Store :=
  match r.side with
  | .atLeast => s.atLeast E r.terms r.bound r.guard
  | .atMost => s.atMost E r.terms r.bound r.guard

/-- Adds some requirements in turn and gives the store behind each of them. -/
def requireAll (E : BoundEncoder) : List Requirement → Store → Run γ (List Store)
  | [], _ => return []
  | r :: rs, s => do
    let s' ← s.require E r
    return s' :: (← requireAll E rs s')

/-- The stores before and behind each of some requirements. -/
def steps (s : Store) (ss : List Store) : List (Store × Store) :=
  (s :: ss).zip ss

/-- A number is **taken** between two stores when the second one has given it and the first one has
not. -/
def Takes (s s' : Store) (v : Nat) : Prop :=
  s.index.size < v ∧ v ≤ s'.index.size

/-- A store **grows** into another one by clauses that are about the first `n` variables and about
numbers taken between them. -/
structure Grows (n : Nat) (s s' : Store) : Prop where
  size_le : s.index.size ≤ s'.index.size
  exists_clauses : ∃ F, s'.solver.clauses = F ++ s.solver.clauses ∧
    ∀ c ∈ F, ∀ l ∈ c, l.var ≤ n ∨ s.Takes s' l.var

theorem grows_refl (n : Nat) (s : Store) : s.Grows n s :=
  ⟨Nat.le_refl _, [], rfl, fun _ hc => by cases hc⟩

/-- However a bound is added, its clauses are about its own variables and new ones. -/
theorem Posts.grows (hE : E.Correct) (hts : ∀ t ∈ ts, 0 < t.literal.var ∧ t.literal.var ≤ n)
    (hguard : ∀ g, guard = some g → g.var ≤ n) (h : Posts E ts guard s s') : s.Grows n s' := by
  cases h with
  | nothing => exact grows_refl n s
  | forbidden =>
    refine ⟨Nat.le_refl _, [guardClause guard []], rfl, fun c hc l hl => .inl ?_⟩
    rw [List.mem_singleton.1 hc] at hl
    rcases var_of_mem_guardClause hl with hl | ⟨g, hg, hv⟩
    · cases hl
    · exact hv ▸ hguard g hg
  | @encoded us b hadmits hvar =>
    obtain ⟨hfree, hvars, -⟩ := hE us b (s.index.size + 1) hadmits
    have hsize : (s.encoded E us b guard).index.size = s.index.size +
        ((E.encode (us.map Term.signed) b ((s.index.size + 1 : Nat) : Int)).2 -
          (s.index.size + 1)) := rfl
    refine ⟨by omega, _, Solver.clauses_addAll _ _, fun c hc l hl => ?_⟩
    obtain ⟨d, hd, rfl⟩ := List.mem_map.1 (List.mem_reverse.1 hc)
    rcases var_of_mem_guardClause hl with hl | ⟨g, hg, hv⟩
    · rcases hvars d hd l hl with ⟨u, hu, hv⟩ | hv
      · obtain ⟨t, ht, htu⟩ := hvar u hu
        exact .inl (hv ▸ htu ▸ (hts t ht).2)
      · refine .inr ⟨?_, ?_⟩ <;> omega
    · exact .inl (hv ▸ hguard g hg)

/-! ### Requirements in turn -/

theorem require_tells {P : Event → Prop} (hP : ∀ v, P (.numbered v)) (E : BoundEncoder)
    (r : Requirement) (s : Store) : (s.require E r : Run γ Store).Tells P := by
  rw [require]
  split
  · exact atLeast_tells hP E _ _ _ s
  · exact atMost_tells hP E _ _ _ s

/-- All that requirements tell of are numbers. -/
theorem requireAll_tells {P : Event → Prop} (hP : ∀ v, P (.numbered v)) (E : BoundEncoder)
    (rs : List Requirement) (s : Store) : (requireAll E rs s : Run γ (List Store)).Tells P := by
  induction rs generalizing s with
  | nil => exact Run.tells_pure _
  | cons r rs ih =>
    exact (require_tells hP E r s).bind fun s' => (ih s').bind fun _ => Run.tells_pure _

/-- A requirement adds that it is met, on variables of its own. -/
theorem require_spec (hE : E.Correct) (h : s.Orderly) (hn : n ≤ s.index.size) (hover : r.Over n)
    (htotal : Term.total r.terms < 9223372036854775808)
    (hfit : (s.require E r : Run γ Store).Fits σ) :
    ∃ s' σ', (s.require E r).Ends σ (.ok s') σ' ∧ s.Adds s' r.Meets ∧ s.Grows n s' := by
  have hguard : s.GuardKnown r.guard := fun g hg => Nat.le_trans (hover.guard g hg) hn
  have hknown : s.TermsKnown r.terms := fun t ht =>
    ⟨(hover.terms t ht).1, Nat.le_trans (hover.terms t ht).2 hn⟩
  have hnarrow := Term.narrow_of_lt htotal
  obtain ⟨side, ts, bound, guard⟩ := r
  cases side with
  | atLeast =>
    obtain ⟨s', σ', hends, hposts, hadds⟩ := atLeast_spec hE h hguard hknown hnarrow bound hfit
    exact ⟨s', σ', hends, hadds, hposts.grows hE hover.terms hover.guard⟩
  | atMost =>
    obtain ⟨s', σ', hends, hposts, hadds⟩ := atMost_spec hE h hguard hknown hnarrow bound hfit
    exact ⟨s', σ', hends, hadds, hposts.grows hE hover.terms hover.guard⟩

/-- Requirements add that all of them are met, and the stores between them only grow. -/
theorem requireAll_spec (hE : E.Correct) (h : s.Orderly) (hn : n ≤ s.index.size)
    (hover : ∀ r ∈ rs, r.Over n) (htotal : ∀ r ∈ rs, Term.total r.terms < 9223372036854775808)
    (hfit : (requireAll E rs s : Run γ (List Store)).Fits σ) :
    ∃ ss σ', (requireAll E rs s).Ends σ (.ok ss) σ' ∧
      s.Adds (ss.getLastD s) (fun N => ∀ r ∈ rs, r.Meets N) ∧
      (∀ p ∈ steps s ss, s.index.size ≤ p.1.index.size ∧ p.1.Grows n p.2) ∧
      (steps s ss).Pairwise fun p q => ∀ v, p.1.Takes p.2 v → ¬ q.1.Takes q.2 v := by
  induction rs generalizing s σ with
  | nil =>
    exact ⟨[], σ, Run.ends_pure _ _, (Adds.refl h).congr fun N => by simp, by simp [steps], .nil⟩
  | cons r rs ih =>
    obtain ⟨hr, hrs⟩ := List.forall_mem_cons.1 hover
    obtain ⟨hrtotal, hrstotal⟩ := List.forall_mem_cons.1 htotal
    have hkeeps (s' : Store) : Run.Keeps (do return s' :: (← requireAll (γ := γ) E rs s')) :=
      (requireAll_tells (fun _ => trivial) E rs s').bind fun _ => Run.tells_pure _
    rw [requireAll] at hfit ⊢
    obtain ⟨s', σ', hends, hadds, hgrows⟩ := require_spec hE h hn hr hrtotal (hfit.left hkeeps)
    have hfit' := (hfit.right (require_tells (fun _ => trivial) E r s) hends).left fun _ =>
      Run.tells_pure _
    obtain ⟨ss, σ'', hends', hadds', hsteps, hpairwise⟩ :=
      ih hadds.orderly (Nat.le_trans hn hgrows.size_le) hrs hrstotal hfit'
    have hcons : steps s (s' :: ss) = (s, s') :: steps s' ss := rfl
    refine ⟨s' :: ss, σ'', hends.bind (hends'.bind (Run.ends_pure _ _)), ?_, ?_, ?_⟩
    · rw [List.getLastD_cons]
      refine (hadds.trans hadds' fun N N' hN hmeets q hq => ?_).congr fun N => ?_
      · exact (hrs q hq).meets (fun v hv => hN v (Nat.le_trans hv hn)) (hmeets q hq)
      · exact List.forall_mem_cons.symm
    · rw [hcons]
      refine List.forall_mem_cons.2 ⟨⟨Nat.le_refl _, hgrows⟩, fun p hp => ?_⟩
      exact ⟨Nat.le_trans hgrows.size_le (hsteps p hp).1, (hsteps p hp).2⟩
    · rw [hcons]
      refine List.pairwise_cons.2 ⟨fun q hq v hv hv' => ?_, hpairwise⟩
      -- What the later stores take is beyond all that this one has.
      have hle := (hsteps q hq).1
      exact absurd hv'.1 (Nat.not_lt.2 (Nat.le_trans hv.2 hle))

end Store

end JudgmentAggregation
