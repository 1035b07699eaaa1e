import JudgmentAggregation.Proofs.Bound.Threshold
import JudgmentAggregation.Proofs.Optimization.Meaning
import JudgmentAggregation.Sat.Exhaustive

/-!
# The search finds the optimal models

Each part of the search keeps a store that means what the search knows. Adding the lower bounds of a
problem makes the store mean feasibility (`OptimizationProblem.addConstraints_spec`). The search for
a better value of one objective does not change the meaning, and it ends with the least value of the
objective and a model that has it (`OptimizationProblem.improve_spec`): the bound asked for is one
less than the value at hand, so that the fuel, which is the first value, is never used up before the
value is zero, and any more of it would give the same run (`OptimizationProblem.improve_fuel`).
Fixing the least value leaves the valuations that are minimal so far
(`OptimizationProblem.minimize_spec`). All this is for runs in which the numbers that the encoder
uses fit (`Run.Fits`).

A model of the solver is about the numbers known when it was found. What counts for the search is
that every valuation of the names that agrees with it has the property that the store means
(`Store.Leads`); this is not lost when further numbers are given.
-/

namespace JudgmentAggregation

open ListFacts VariableIndex

/-- All valuations that agree with a model have a property. -/
def Store.Leads (s : Store) (m : Model) (Q : Valuation String → Prop) : Prop :=
  ∀ A, s.index.Agrees m.valuation A → Q A

namespace OptimizationProblem

variable {γ : Type} {B : Backend γ} {E : BoundEncoder} {s s' : Store} {σ : Session γ}
  {P : Event → Prop} {Q : Valuation String → Prop} {A : Valuation String} {N : Valuation Nat}
  {m : Model}
  {guard : Option (Literal Nat)} {sums : List (List (Term String))} {us : List (List (Term Nat))}

/-- A sum on numbers is narrow if the sum on their names is. -/
theorem narrow_of_encodes {i : VariableIndex} {ts : List (Term String)} {us : List (Term Nat)}
    (hus : List.Forall₂ i.EncodesTerm ts us) (hts : Term.Narrow ts) : Term.Narrow us where
  total_lt := total_eq hus ▸ hts.total_lt
  value_lt N N' := by
    rw [value_eq hus (i.agrees_named N), value_eq hus (i.agrees_named N')]
    exact hts.value_lt _ _

/-! ### What the search tells of -/

/-- All that lower bounds tell of are numbers. -/
theorem addConstraints_tells (hP : ∀ v, P (.numbered v)) (E : BoundEncoder)
    (cs : List LowerBound) (s : Store) : (addConstraints E cs s : Run γ Store).Tells P := by
  induction cs generalizing s with
  | nil => exact Run.tells_pure s
  | cons c cs ih => exact (Store.atLeast_tells hP E _ _ _ _).bind fun s' => ih s'

theorem boundSums_tells (hP : ∀ v, P (.numbered v)) (E : BoundEncoder) (bound : Nat)
    (guard : Option (Literal Nat)) (us : List (List (Term Nat))) (s : Store) :
    (boundSums E bound guard us s : Run γ Store).Tells P := by
  induction us generalizing s with
  | nil => exact Run.tells_pure s
  | cons ts us ih => exact (Store.atMost_tells hP E _ _ _ _).bind fun s' => ih s'

theorem solveUnder_keeps (B : Backend γ) (i v : Nat) (s : Store) : (solveUnder B i v s).Keeps :=
  (Solver.tells_solve (fun _ => trivial) _ _).bind fun _ =>
    ((Run.tells_ofResult _).inContext _).bind fun _ => Run.tells_pure _

theorem findBetter_keeps (B : Backend γ) (E : BoundEncoder) (i : Nat)
    (us : List (List (Term Nat))) (best : Nat) (s : Store) : (findBetter B E i us best s).Keeps :=
  (boundSums_tells (fun _ => trivial) E _ _ us _).bind fun s' => solveUnder_keeps B i _ s'

theorem improve_keeps (B : Backend γ) (E : BoundEncoder) (i : Nat) (us : List (List (Term Nat)))
    (fuel best : Nat) (m : Model) (s : Store) : (improve B E i us fuel best m s).Keeps := by
  induction fuel generalizing best m s with
  | zero => exact Run.tells_pure _
  | succ fuel ih =>
    rw [improve]
    split_ifs
    · exact Run.tells_pure _
    · refine (findBetter_keeps B E i us best s).bind fun ⟨found, s'⟩ => ?_
      rcases found with _ | m'
      · exact Run.tells_pure _
      · exact (Run.tells_ofResult _).bind fun best' => (Run.tells_record trivial).bind
          fun _ => ih best' m' s'

theorem minimize_keeps (B : Backend γ) (E : BoundEncoder) (i : Nat) (os : List Objective)
    (m : Model) (s : Store) : (minimize B E i os m s).Keeps := by
  induction os generalizing i m s with
  | nil => exact Run.tells_pure s
  | cons o os ih =>
    exact (Run.tells_ofResult _).bind fun first => (Run.tells_record trivial).bind fun _ =>
      (improve_keeps B E i _ first first m _).bind fun found => (Run.tells_record trivial).bind
        fun _ => (boundSums_tells (fun _ => trivial) E _ _ _ _).bind fun s' =>
          ih (i + 1) found.2.1 s'

theorem listMinimal_keeps (B : Backend γ) (E : BoundEncoder) (projection : List (String × Nat))
    (os : List Objective) (s : Store) : (listMinimal B E projection os s).Keeps := by
  refine (Solver.tells_solve (fun _ => trivial) _ _).bind fun solved =>
    ((Run.tells_ofResult _).inContext _).bind fun found => ?_
  rcases found with _ | m
  · exact (Run.tells_record trivial).bind fun _ => Run.tells_pure _
  · exact (minimize_keeps B E 0 os m _).bind fun _ => Run.tells_pure _

theorem optimalModels_keeps (B : Backend γ) (E : BoundEncoder) (p : OptimizationProblem) :
    (p.optimalModels B E).Keeps :=
  (addConstraints_tells (fun _ => trivial) E _ _).bind fun s => listMinimal_keeps B E _ _ s

/-! ### Lower bounds -/

/-- The guard on numbers is about numbers given and as true as the guard on names. -/
structure EncodesGuard (i : VariableIndex) (guard : Option (Literal String))
    (guard' : Option (Literal Nat)) : Prop where
  known : ∀ g, guard' = some g → g.var ≤ i.size
  active_iff : ∀ N A, i.Agrees N A → (Store.Active guard' N ↔ guard.all (·.eval A) = true)

theorem encodesGuard_none (i : VariableIndex) : EncodesGuard i none none :=
  ⟨by simp, by simp [Store.Active]⟩

/-- A guard on a name is encoded by the literal on its number. -/
theorem encodesGuard_some {i : VariableIndex} {g : Literal String} {g' : Literal Nat}
    (hi : i.Orderly) (hg : i.Encodes g g') : EncodesGuard i (some g) (some g') where
  known h hh := Option.some.inj hh ▸ hi.le_size hg.1
  active_iff N A hN := by simp [Store.Active, hg.eval_eq hN]

/-- A lower bound on numbers makes the bound on names part of the meaning. -/
theorem atLeast_means (hE : E.Correct) (h : s.Means Q) {c : LowerBound} {ts : List (Term Nat)}
    (hc : Term.Narrow c.terms) (hts : List.Forall₂ s.index.EncodesTerm c.terms ts)
    (hguard : EncodesGuard s.index c.guard guard)
    (hfit : (s.atLeast E ts c.bound guard : Run γ Store).Fits σ) :
    ∃ s' σ', (s.atLeast E ts c.bound guard).Ends σ (.ok s') σ' ∧ s.index.Extends s'.index ∧
      s'.Means fun A => Q A ∧ c.holds A = true := by
  have hknown : s.TermsKnown ts := h.orderly.index.var_given hts
  obtain ⟨s', σ', hends, -, hadds⟩ := Store.atLeast_spec hE h.orderly hguard.known hknown
    (narrow_of_encodes hts hc) c.bound hfit
  refine ⟨s', σ', hends, hadds.extends, h.adds hadds fun N A hN => ?_⟩
  rw [hguard.active_iff N A hN, value_eq hts hN, LowerBound.holds]
  cases c.guard.all (·.eval A) <;> simp

/-- Adding the lower bounds of a problem makes them part of the meaning. -/
theorem addConstraints_spec (hE : E.Correct) {cs : List LowerBound}
    (hcs : ∀ c ∈ cs, Term.Narrow c.terms) (h : s.Means Q)
    (hfit : (addConstraints E cs s : Run γ Store).Fits σ) :
    ∃ s' σ', (addConstraints E cs s).Ends σ (.ok s') σ' ∧ s.index.Extends s'.index ∧
      s'.Means fun A => Q A ∧ cs.all (·.holds A) = true := by
  induction cs generalizing s Q σ with
  | nil => exact ⟨s, σ, Run.ends_pure s σ, .refl _, h.congr fun A => by simp⟩
  | cons c cs ih =>
    have hc := hcs c List.mem_cons_self
    have hcs := fun c hc => hcs c (List.mem_cons_of_mem _ hc)
    have ho₁ := numbers_terms.orderly c.terms s.index h.orderly.index
    have hext₁ := numbers_terms.grows c.terms s.index h.orderly.index
    have hts := numbers_terms.related c.terms s.index h.orderly.index
    -- The guard, if there is one, is numbered after the terms.
    obtain ⟨guard, i, hi, hext, hts, hguard, heq⟩ : ∃ guard i, i.Orderly ∧ s.index.Extends i ∧
        List.Forall₂ i.EncodesTerm c.terms (s.index.terms c.terms).1 ∧
        EncodesGuard i c.guard guard ∧ addConstraints (γ := γ) E (c :: cs) s = (do
          addConstraints E cs (← Store.atLeast E (s.index.terms c.terms).1 c.bound guard
            ⟨s.solver, i⟩)) := by
      cases hg : c.guard with
      | none =>
        exact ⟨none, _, ho₁, hext₁, hts, encodesGuard_none _, by rw [addConstraints, hg]⟩
      | some g =>
        have hext₂ := numbers_literal.grows g _ ho₁
        exact ⟨some _, _, numbers_literal.orderly g _ ho₁, hext₁.trans hext₂,
          numbers_terms.mono _ _ _ _ hext₂ hts, encodesGuard_some (numbers_literal.orderly g _ ho₁)
            (numbers_literal.related g _ ho₁), by rw [addConstraints, hg]⟩
    rw [heq] at hfit ⊢
    obtain ⟨s₁, σ₁, hends₁, hext₁, hmeans₁⟩ := atLeast_means hE (h.number hi hext) hc hts hguard
      (hfit.left fun s => addConstraints_tells (fun _ => trivial) E cs s)
    obtain ⟨s₂, σ₂, hends₂, hext₂, hmeans₂⟩ := ih hcs hmeans₁
      (hfit.right (Store.atLeast_tells (fun _ => trivial) E _ _ _ _) hends₁)
    refine ⟨s₂, σ₂, hends₁.bind hends₂, hext.trans (hext₁.trans hext₂), hmeans₂.congr fun A => ?_⟩
    rw [List.all_cons, Bool.and_eq_true, and_assoc]

/-! ### The sums of an objective -/

theorem numbers_indexSums :
    Numbers indexSums fun i => List.Forall₂ (List.Forall₂ i.EncodesTerm) :=
  numbers_terms.all (fun _ => rfl) fun _ _ _ => rfl

/-- A bound for the greatest of some numbers is one for each of them. -/
theorem foldl_max_le {ns : List Nat} {b k : Nat} :
    ns.foldl Nat.max b ≤ k ↔ b ≤ k ∧ ∀ n ∈ ns, n ≤ k := by
  induction ns generalizing b with
  | nil => simp
  | cons n ns ih =>
    rw [List.foldl_cons, ih, List.forall_mem_cons, ← and_assoc]
    exact and_congr_left fun _ => Nat.max_le

theorem map_value_eq (hus : List.Forall₂ (List.Forall₂ s.index.EncodesTerm) sums us)
    (hN : s.index.Agrees N A) : us.map (Term.value N) = sums.map (Term.value A) := by
  induction hus with
  | nil => rfl
  | cons h _ ih => rw [List.map_cons, List.map_cons, value_eq h hN, ih]

/-- The greatest sum in a model is the greatest of its values, if the weights add up to counts. -/
theorem greatestSum_eq {best : Nat} (hus : ∀ ts ∈ us, Term.total ts < Count.limit) :
    greatestSum m best us = .ok ((us.map (Term.value m.valuation)).foldl Nat.max best) := by
  induction us generalizing best with
  | nil => rfl
  | cons ts us ih =>
    have hcount : Term.count m.valuation ts = .ok (Term.value m.valuation ts) :=
      Count.sum_eq_ok (Nat.lt_of_le_of_lt (Term.value_le_total _ _) (hus ts List.mem_cons_self))
    rw [greatestSum, hcount]
    exact ih fun us hu => hus us (List.mem_cons_of_mem _ hu)

/-- Bounding all the sums adds that none of them exceeds the bound where the guard is true. -/
theorem boundSums_spec (hE : E.Correct) (h : s.Orderly) (hg : s.GuardKnown guard) (bound : Nat)
    (hknown : ∀ ts ∈ us, s.TermsKnown ts) (hus : ∀ ts ∈ us, Term.Narrow ts)
    (hfit : (boundSums E bound guard us s : Run γ Store).Fits σ) :
    ∃ s' σ', (boundSums E bound guard us s).Ends σ (.ok s') σ' ∧
      s.Adds s' fun N => Store.Active guard N → ∀ ts ∈ us, Term.value N ts ≤ bound := by
  induction us generalizing s σ with
  | nil => exact ⟨s, σ, Run.ends_pure s σ, (Store.Adds.refl h).congr fun N => by simp⟩
  | cons ts us ih =>
    obtain ⟨hts, hknown⟩ := List.forall_mem_cons.1 hknown
    obtain ⟨hnarrow, hus⟩ := List.forall_mem_cons.1 hus
    rw [boundSums] at hfit ⊢
    obtain ⟨s₁, σ₁, hends₁, -, hadds₁⟩ := Store.atMost_spec hE h hg hts hnarrow bound
      (hfit.left fun s => boundSums_tells (fun _ => trivial) E _ _ us s)
    obtain ⟨s₂, σ₂, hends₂, hadds₂⟩ := ih hadds₁.orderly (hg.mono hadds₁.size_le)
      (fun us hu => (hknown us hu).mono hadds₁.size_le) hus
      (hfit.right (Store.atMost_tells (fun _ => trivial) E _ _ _ _) hends₁)
    refine ⟨s₂, σ₂, hends₁.bind hends₂,
      (hadds₁.trans hadds₂ fun N N' hsame hN hact us hu => ?_).congr fun N => ?_⟩
    · rw [Term.value_congr fun t ht => hsame _ (hknown us hu t ht).2]
      exact hN ((Store.active_congr hg hsame).1 hact) us hu
    · simp only [List.forall_mem_cons]
      exact ⟨fun hN hact => ⟨hN.1 hact, hN.2 hact⟩,
        fun hN => ⟨fun hact => (hN hact).1, fun hact => (hN hact).2⟩⟩

/-! ### Better values of one objective -/

section Improve

variable {o : Objective} (hus : List.Forall₂ (List.Forall₂ s.index.EncodesTerm) o.sums us)
include hus

/-- Sums on numbers are as narrow as those on names. -/
theorem narrow_of_sums (ho : ∀ ts ∈ o.sums, Term.Narrow ts) : ∀ ts ∈ us, Term.Narrow ts := by
  intro ts hts
  obtain ⟨ts', hts', h⟩ := exists_of_forall₂ hus hts
  exact narrow_of_encodes h (ho ts' hts')

/-- Sums that have got numbers are known. -/
theorem termsKnown_of_sums (hs : s.Orderly) : ∀ ts ∈ us, s.TermsKnown ts := by
  intro ts hts
  obtain ⟨ts', -, h⟩ := exists_of_forall₂ hus hts
  exact hs.index.var_given h

/-- The sums on numbers are bounded where the value of the objective is. -/
theorem forall_value_le_iff (hN : s.index.Agrees N A) (bound : Nat) :
    (∀ ts ∈ us, Term.value N ts ≤ bound) ↔ o.value A ≤ bound := by
  rw [Objective.value, ← map_value_eq hus hN, foldl_max_le, List.forall_mem_map]
  exact (and_iff_right (Nat.zero_le bound)).symm

/-- The greatest sum in a model is the value of the objective. -/
theorem greatestSum_spec (ho : ∀ ts ∈ o.sums, Term.Narrow ts) (m : Model) :
    ∃ best, greatestSum m 0 us = .ok best ∧ s.Leads m fun A => o.value A = best := by
  refine ⟨_, greatestSum_eq fun ts hts => (narrow_of_sums hus ho ts hts).total_lt, fun A hA => ?_⟩
  show o.value A = _
  rw [Objective.value, ← map_value_eq hus hA]

/-- The condition that the sums meet a bound under the new selector. -/
def boundedUnder (s : Store) (us : List (List (Term Nat))) (bound : Nat)
    (N : Valuation Nat) : Prop :=
  Store.Active (some (.pos (s.index.size + 1))) N → ∀ ts ∈ us, Term.value N ts ≤ bound

/-- A model found under the selector meets the bound. -/
theorem leads_of_settled {bound : Nat} (hs : s.Means Q)
    (hadds : s.select.Adds s' (boundedUnder s us bound))
    (hm : Query.Settled ⟨s'.solver.clauses, [.pos (s.index.size + 1)]⟩ (some m)) :
    s'.Leads m fun A => Q A ∧ o.value A ≤ bound := by
  intro A hA
  have hA' : s.select.index.Agrees m.valuation A := hadds.agrees_iff.1 hA
  obtain ⟨hclauses, hselector⟩ := Bool.and_eq_true_iff.1 hm
  obtain ⟨hholds, hbounded⟩ := hadds.sound m.valuation hclauses
  refine ⟨hs.select.of_holds hA' hholds, (forall_value_le_iff hus hA' bound).1 (hbounded ?_)⟩
  intro g hg
  obtain rfl := Option.some.inj hg
  simpa using hselector

/-- If there is no model under the selector, nothing meets the bound. -/
theorem lt_value_of_settled {bound : Nat} (hs : s.Means Q)
    (hadds : s.select.Adds s' (boundedUnder s us bound))
    (hnone : Query.Settled ⟨s'.solver.clauses, [.pos (s.index.size + 1)]⟩ none) (hQ : Q A) :
    bound < o.value A := by
  by_contra hle
  obtain ⟨N, hN, hholds⟩ := (hs.iff A).2 hQ
  -- With the selector true, a valuation that meets the bound would be a model.
  let N₀ : Valuation Nat := fun v => if v = s.index.size + 1 then true else N v
  have hsame₀ : s.Same N N₀ := fun v hv => if_neg (by omega)
  have hbounded : boundedUnder s us bound N₀ := fun _ =>
    (forall_value_le_iff hus (hN.of_eq hs.orderly.index hsame₀) bound).2 (Nat.le_of_not_lt hle)
  obtain ⟨N₁, hsame₁, hholds₁⟩ :=
    hadds.complete N₀ (hs.orderly.holds_of_same hsame₀ hholds) hbounded
  have htrue : N₁ (s.index.size + 1) = true := (hsame₁ _ (Nat.le_refl _)).trans (if_pos rfl)
  have hfalse := hnone N₁
  rw [Store.Holds] at hholds₁
  simp [Query.eval, hholds₁, Literal.eval, Literal.pos, htrue] at hfalse

/-- A search for a better value finds a model that has one, or there is none. The meaning of the
store is what it was. -/
theorem findBetter_spec (hsound : B.Sound) (hcomplete : B.Complete) (hE : E.Correct)
    (ho : ∀ ts ∈ o.sums, Term.Narrow ts) (i : Nat) {best : Nat} (hs : s.Means Q)
    (hfit : (findBetter B E i us best s).Fits σ) :
    ∃ found s' σ', (findBetter B E i us best s).Ends σ (.ok (found, s')) σ' ∧
      s'.Means Q ∧ s.index.Extends s'.index ∧
      (found = none → ∀ A, Q A → best - 1 < o.value A) ∧
      ∀ m, found = some m → s'.Leads m fun A => Q A ∧ o.value A ≤ best - 1 := by
  have hg : s.select.GuardKnown (some (.pos (s.index.size + 1))) := fun g hg =>
    Option.some.inj hg ▸ Nat.le_refl _
  have hknown : ∀ ts ∈ us, s.select.TermsKnown ts := fun ts hts =>
    (termsKnown_of_sums hus hs.orderly ts hts).mono (Nat.le_succ _)
  -- The sums are bounded by one less than the best value, under a new selector.
  obtain ⟨s₁, σ₁, hends₁, hadds⟩ := boundSums_spec hE hs.select.orderly hg (best - 1) hknown
    (narrow_of_sums hus ho) (hfit.left fun s => solveUnder_keeps B i _ s)
  have hext : s.index.Extends s₁.index := (extends_allocate _ 1).trans hadds.extends
  obtain ⟨answer, solver, σ₂, found, hrun, hsolver, hfound, hsettled⟩ :=
    s₁.solver.solve_spec hsound hcomplete [.pos (s.index.size + 1)] σ₁
  refine ⟨found, ⟨solver.add [.neg (s.index.size + 1)], s₁.index⟩, σ₂, ?_, ?_, hext, ?_, ?_⟩
  · exact hends₁.bind ((Run.ends_lift hrun).bind
      (((Run.ends_ok hfound _).inContext_ok _).bind (Run.ends_pure _ _)))
  · refine hs.of_selector hadds (fun N hN hact => ?_) hsolver
    have htrue := hact _ rfl
    simp [Literal.eval, Literal.pos, hN] at htrue
  · rintro rfl A hQ
    exact lt_value_of_settled hus hs hadds hsettled hQ
  · rintro m rfl
    have hm := leads_of_settled hus hs hadds hsettled
    exact hm

section Fuel

variable (hsound : B.Sound) (hcomplete : B.Complete) (hE : E.Correct)
  (ho : ∀ ts ∈ o.sums, Term.Narrow ts) (i : Nat) {fuel best : Nat}
  (hs : s.Means Q) (hm : s.Leads m fun A => Q A ∧ o.value A = best) (hfuel : best ≤ fuel)
  (hfit : (improve B E i us fuel best m s).Fits σ)
include hsound hcomplete hE ho hs hm hfuel hfit

/-- The search for better values ends with the least one and with a model that has it, however much
fuel there is beyond the first value. The meaning of the store is what it was. -/
theorem improve_spec :
    ∃ best' m' s' σ', (∀ k, (improve B E i us (fuel + k) best m s).Ends σ
        (.ok (best', m', s')) σ') ∧
      s'.Means Q ∧ s.index.Extends s'.index ∧
      (s'.Leads m' fun A => Q A ∧ o.value A = best') ∧ ∀ A, Q A → best' ≤ o.value A := by
  induction fuel generalizing best m s σ with
  | zero =>
    obtain rfl := Nat.le_zero.1 hfuel
    refine ⟨0, m, s, σ, fun k => ?_, hs, .refl _, hm, fun A _ => Nat.zero_le _⟩
    cases k <;> exact Run.ends_pure _ _
  | succ fuel ih =>
    have hsucc (k : Nat) : fuel + 1 + k = fuel + k + 1 := by omega
    by_cases hbest : best = 0
    · refine ⟨best, m, s, σ, fun k => ?_, hs, .refl _, hm, fun A _ => by omega⟩
      rw [hsucc, improve, if_pos hbest]
      exact Run.ends_pure _ _
    rw [improve, if_neg hbest] at hfit
    have hfit₀ : (findBetter B E i us best s).Fits σ := hfit.left fun ⟨found, s⟩ => by
      rcases found with _ | m
      · exact Run.tells_pure _
      · exact (Run.tells_ofResult _).bind fun best => (Run.tells_record trivial).bind fun _ =>
          improve_keeps B E i us fuel best m s
    obtain ⟨found, s₁, σ₁, hends₁, hs₁, hext, hnone, hsome⟩ :=
      findBetter_spec hus hsound hcomplete hE ho i hs hfit₀
    have hfit₁ := hfit.right (findBetter_keeps B E i us best s) hends₁
    rcases found with _ | m'
    · refine ⟨best, m, s₁, σ₁, fun k => ?_, hs₁, hext, fun A hA => hm A (hext.agrees hA),
        fun A hQ => ?_⟩
      · rw [hsucc, improve, if_neg hbest]
        exact hends₁.bind (Run.ends_pure _ _)
      · have hlt := hnone rfl A hQ
        omega
    · have hm' := hsome m' rfl
      have hus₁ := numbers_indexSums.mono _ _ _ _ hext hus
      obtain ⟨best', hbest', hvalue⟩ := greatestSum_spec hus₁ ho m'
      -- Some valuation agrees with the model, so the new value meets the bound.
      have hA := s₁.index.agrees_named m'.valuation
      have hle : best' ≤ best - 1 := hvalue _ hA ▸ (hm' _ hA).2
      obtain ⟨best'', m'', s'', σ'', hends, hs'', hext'', hm'', hmin⟩ := ih hus₁ hs₁
        (fun A hA => ⟨(hm' A hA).1, hvalue A hA⟩) (by omega) (hfit₁.of_ofResult hbest').of_record
      refine ⟨best'', m'', s'', σ'', fun k => ?_, hs'', hext.trans hext'', hm'', hmin⟩
      rw [hsucc, improve, if_neg hbest]
      exact hends₁.bind ((Run.ends_ok hbest' _).bind ((Run.ends_record _ _).bind (hends k)))

/-- The first value is fuel enough: any more of it gives the same run. -/
theorem improve_fuel (k : Nat) :
    (improve B E i us (fuel + k) best m s).run.run σ =
      (improve B E i us fuel best m s).run.run σ := by
  obtain ⟨best', m', s', σ', hends, -⟩ :=
    improve_spec hus hsound hcomplete hE ho i hs hm hfuel hfit
  exact (hends k).trans (hends 0).symm

end Fuel

end Improve

/-! ### All the objectives -/

/-- The valuations with a property that minimize the objectives one after the other. -/
def Minimal : List Objective → (Valuation String → Prop) → Valuation String → Prop
  | [], Q => Q
  | o :: os, Q => Minimal os fun A => Q A ∧ ∀ A', Q A' → o.value A ≤ o.value A'

/-- To minimize the objectives one after the other is to minimize the list of their values. -/
theorem minimal_iff {os : List Objective} :
    Minimal os Q A ↔ Q A ∧ ∀ A', Q A' →
      ¬ List.Lex (· < ·) (os.map (Objective.value A')) (os.map (Objective.value A)) := by
  induction os generalizing Q with
  | nil => simp [Minimal]
  | cons o os ih =>
    rw [Minimal, ih]
    simp only [List.map_cons, List.cons_lex_cons_iff]
    constructor
    · rintro ⟨⟨hQ, hleast⟩, hrest⟩
      -- A smaller list is smaller at the first value, or equal there and smaller in the rest.
      refine ⟨hQ, fun A' hQ' => ?_⟩
      rintro (hlt | ⟨heq, hlex⟩)
      · exact absurd (hleast A' hQ') (Nat.not_le.2 hlt)
      · exact hrest A' ⟨hQ', fun A'' hQ'' => heq ▸ hleast A'' hQ''⟩ hlex
    · rintro ⟨hQ, hnone⟩
      have hleast : ∀ A', Q A' → o.value A ≤ o.value A' := fun A' hQ' =>
        Nat.le_of_not_lt fun hlt => hnone A' hQ' (.inl hlt)
      refine ⟨⟨hQ, hleast⟩, fun A' ⟨hQ', hleast'⟩ hlex => ?_⟩
      have heq : o.value A' = o.value A := Nat.le_antisymm (hleast' A hQ) (hleast A' hQ')
      exact hnone A' hQ' (.inr ⟨heq, hlex⟩)

/-- The search through all the objectives leaves a store that means minimality, and something is
minimal. -/
theorem minimize_spec (hsound : B.Sound) (hcomplete : B.Complete) (hE : E.Correct)
    {os : List Objective} (hos : ∀ o ∈ os, ∀ ts ∈ o.sums, Term.Narrow ts)
    (i : Nat) (hs : s.Means Q) (hm : s.Leads m Q) (hfit : (minimize B E i os m s).Fits σ) :
    ∃ s' σ', (minimize B E i os m s).Ends σ (.ok s') σ' ∧ s.index.Extends s'.index ∧
      s'.Means (Minimal os Q) ∧ ∃ A, Minimal os Q A := by
  induction os generalizing i m s Q σ with
  | nil => exact ⟨s, σ, Run.ends_pure _ _, .refl _, hs, _, hm _ (s.index.agrees_named _)⟩
  | cons o os ih =>
    obtain ⟨ho, hos⟩ := List.forall_mem_cons.1 hos
    have hext₁ := numbers_indexSums.grows o.sums s.index hs.orderly.index
    have hus₁ := numbers_indexSums.related o.sums s.index hs.orderly.index
    have hs₁ := hs.number (numbers_indexSums.orderly o.sums s.index hs.orderly.index) hext₁
    obtain ⟨first, hfirst, hvalue⟩ := greatestSum_spec (s := ⟨s.solver, _⟩) hus₁ ho m
    have hfit₁ := (hfit.of_ofResult hfirst).of_record
    obtain ⟨best, m₂, s₂, σ₂, hends₂, hs₂, hext₂, hm₂, hleast⟩ := improve_spec hus₁ hsound hcomplete
      hE ho i hs₁ (fun A hA => ⟨hm A (hext₁.agrees hA), hvalue A hA⟩) (Nat.le_refl first)
      (hfit₁.left fun found => (Run.tells_record trivial).bind fun _ =>
        (boundSums_tells (fun _ => trivial) E _ _ _ _).bind fun s =>
          minimize_keeps B E (i + 1) os found.2.1 s)
    have hfit₂ := (hfit₁.right (improve_keeps B E i _ first first m _) (hends₂ 0)).of_record
    have hus₂ := numbers_indexSums.mono _ _ _ _ hext₂ hus₁
    have hg : s₂.GuardKnown none := fun g hg => by cases hg
    obtain ⟨s₃, σ₃, hends₃, hadds⟩ := boundSums_spec hE hs₂.orderly hg best
      (termsKnown_of_sums hus₂ hs₂.orderly) (narrow_of_sums hus₂ ho)
      (hfit₂.left fun s => minimize_keeps B E (i + 1) os m₂ s)
    have hmeans₃ := hs₂.adds hadds (R := fun A => o.value A ≤ best) fun N A hA => by
      rw [← forall_value_le_iff hus₂ hA]
      exact forall_prop_of_true fun g hg => by cases hg
    -- The best value is the least one, since the last model has it.
    have hbest : ∀ A, Q A ∧ o.value A ≤ best ↔ Q A ∧ ∀ A', Q A' → o.value A ≤ o.value A' := by
      obtain ⟨hQ₂, hvalue₂⟩ := hm₂ _ (s₂.index.agrees_named m₂.valuation)
      refine fun A => and_congr_right fun _ => ⟨fun hle A' hA' => ?_, fun hle => ?_⟩
      · exact Nat.le_trans hle (hleast A' hA')
      · exact hvalue₂ ▸ hle _ hQ₂
    have hm₃ : s₃.Leads m₂ fun A => Q A ∧ ∀ A', Q A' → o.value A ≤ o.value A' := fun A hA => by
      obtain ⟨hQ, hvalue⟩ := hm₂ A (hadds.agrees_iff.1 hA)
      exact (hbest A).1 ⟨hQ, Nat.le_of_eq hvalue⟩
    obtain ⟨s₄, σ₄, hends₄, hext₄, hs₄⟩ := ih hos (i + 1) (hmeans₃.congr hbest) hm₃
      (hfit₂.right (boundSums_tells (fun _ => trivial) E _ _ _ _) hends₃)
    refine ⟨s₄, σ₄, ?_, hext₁.trans (hext₂.trans (hadds.extends.trans hext₄)), hs₄⟩
    exact (Run.ends_ok hfirst σ).bind ((Run.ends_record _ _).bind ((hends₂ 0).bind
      ((Run.ends_record _ _).bind (hends₃.bind hends₄))))

/-! ### Optimal models -/

/-- The weights of every sum of a problem add up to less than 2⁶³. -/
structure Moderate (p : OptimizationProblem) : Prop where
  constraints : ∀ c ∈ p.constraints, Term.total c.terms < 9223372036854775808
  objectives : ∀ o ∈ p.objectives, ∀ ts ∈ o.sums, Term.total ts < 9223372036854775808

/-- All the sums of a problem are narrow. -/
structure Narrow (p : OptimizationProblem) : Prop where
  constraints : ∀ c ∈ p.constraints, Term.Narrow c.terms
  objectives : ∀ o ∈ p.objectives, ∀ ts ∈ o.sums, Term.Narrow ts

/-- A valuation is **optimal** when it is feasible and no feasible valuation has lexicographically
smaller values of the objectives. -/
def Optimal (p : OptimizationProblem) (A : Valuation String) : Prop :=
  p.feasible A = true ∧
    ∀ A', p.feasible A' = true → ¬ List.Lex (· < ·) (p.values A') (p.values A)

variable {p : OptimizationProblem}

/-- Sums are narrow if their weights add up to less than 2⁶³. -/
theorem Moderate.narrow (hp : p.Moderate) : p.Narrow :=
  ⟨fun c hc => Term.narrow_of_lt (hp.constraints c hc),
    fun o ho ts hts => Term.narrow_of_lt (hp.objectives o ho ts hts)⟩

/-- What remains to be listed are the projections of the valuations that are minimal among those
that a store means, and something is minimal if the store means anything. -/
theorem listMinimal_spec (hsound : B.Sound) (hcomplete : B.Complete) (hE : E.Correct)
    {os : List Objective} (hos : ∀ o ∈ os, ∀ ts ∈ o.sums, Term.Narrow ts) (hs : s.Means Q)
    {names : List String} {projection : List (String × Nat)}
    (hprojection : ∀ i, s.index.Extends i → List.Forall₂ (fun name p => p.1 = name ∧
      i.get? name = some p.2) names projection)
    (hfit : (listMinimal B E projection os s).Fits σ) :
    ∃ e σ', (listMinimal B E projection os s).Ends σ (.ok e) σ' ∧
      (∀ v, e.Remaining v ↔ ∃ A, Minimal os Q A ∧ v = names.map fun name => (name, A name)) ∧
      ∀ A, Q A → ∃ A', Minimal os Q A' := by
  obtain ⟨answer, solver, σ₁, found, hrun, hsolver, hfound, hsettled⟩ :=
    s.solver.solve_spec hsound hcomplete [] σ
  have hs₁ : Store.Means ⟨solver, s.index⟩ Q := hs.of_clauses hsolver
  rcases found with _ | m
  · -- Without a first model nothing is feasible, so nothing is minimal and nothing is listed.
    have hnone : ∀ A, ¬ Q A := fun A hA => by
      obtain ⟨N, -, hN⟩ := (hs.iff A).2 hA
      rw [Store.Holds] at hN
      simpa [Query.eval, hN] using hsettled N
    have hnone' : ∀ A, ¬ Minimal os Q A := fun A hA => hnone A (minimal_iff.1 hA).1
    refine ⟨.ofSolver solver projection, ⟨σ₁.memory, .constraintsUnsatisfiable :: σ₁.events⟩, ?_,
      fun v => ?_, fun A hA => absurd hA (hnone A)⟩
    · exact (Run.ends_lift hrun).bind (((Run.ends_ok hfound _).inContext_ok _).bind
        ((Run.ends_record _ _).bind (Run.ends_pure _ _)))
    · rw [Enumerator.remaining_ofSolver_iff hs₁ (hprojection _ (.refl _))]
      exact exists_congr fun A => and_congr_left fun _ => iff_of_false (hnone A) (hnone' A)
  · have hm : Store.Leads ⟨solver, s.index⟩ m Q := fun A hA => by
      refine hs₁.of_holds hA ?_
      rw [Store.Holds, hsolver]
      exact (Bool.and_eq_true_iff.1 hsettled).1
    have hfit₁ :=
      (hfit.right (Solver.tells_solve (fun _ => trivial) _ _) (Run.ends_lift hrun)).right
      ((Run.tells_ofResult _).inContext _) ((Run.ends_ok hfound _).inContext_ok _)
    obtain ⟨s', σ', hends, hext', hs', A₀, hA₀⟩ := minimize_spec hsound hcomplete hE hos 0 hs₁ hm
      (hfit₁.left fun _ => Run.tells_pure _)
    refine ⟨.ofSolver s'.solver projection, σ', ?_, fun v => ?_, fun _ _ => ⟨A₀, hA₀⟩⟩
    · exact (Run.ends_lift hrun).bind (((Run.ends_ok hfound _).inContext_ok _).bind
        (hends.bind (Run.ends_pure _ _)))
    · exact Enumerator.remaining_ofSolver_iff hs' (hprojection _ hext') v

/-- The search ends, what remains to be listed are the projections of the optimal valuations, and
something is optimal if anything is feasible. -/
theorem optimalModels_ends (hsound : B.Sound) (hcomplete : B.Complete) (hE : E.Correct)
    (hp : p.Narrow) (hfit : (p.optimalModels B E).Fits σ) :
    ∃ e σ', (p.optimalModels B E).Ends σ (.ok e) σ' ∧
      (∀ v, e.Remaining v ↔ ∃ A, p.Optimal A ∧ v = p.projection.map fun name => (name, A name)) ∧
      ∀ A, p.feasible A = true → ∃ A', p.Optimal A' := by
  have ho₁ := numbers_insertAll.orderly p.projection _ orderly_empty
  have hprojection := numbers_insertAll.related p.projection _ orderly_empty
  have hext₂ := numbers_cnf.grows p.hard _ ho₁
  obtain ⟨s, σ₁, hends₁, hext₃, hmeans⟩ := addConstraints_spec hE hp.constraints
    (Store.means_cnf p.hard ho₁) (hfit.left fun s => listMinimal_keeps B E _ _ s)
  have hfeasible : s.Means fun A => p.feasible A = true :=
    hmeans.congr fun A => by rw [feasible, Bool.and_eq_true]
  have optimal_iff (A) : Minimal p.objectives (fun A => p.feasible A = true) A ↔ p.Optimal A :=
    minimal_iff
  -- The names of the projection keep their numbers to the end.
  obtain ⟨e, σ₂, hends₂, hremaining, hminimal⟩ := listMinimal_spec hsound hcomplete hE hp.objectives
    hfeasible (fun i hext => numbers_insertAll.mono _ _ _ _ (hext₂.trans (hext₃.trans hext))
      hprojection) (hfit.right (addConstraints_tells (fun _ => trivial) E _ _) hends₁)
  refine ⟨e, σ₂, hends₁.bind hends₂, fun v => ?_, fun A hA => ?_⟩
  · rw [hremaining v]
    exact exists_congr fun A => and_congr_left fun _ => optimal_iff A
  · obtain ⟨A', hA'⟩ := hminimal A hA
    exact ⟨A', (optimal_iff A').1 hA'⟩

/-- In a run whose numbers fit, the enumerator of the optimal models has the projections of all the
optimal valuations before it, and there is one if there is a feasible valuation. -/
theorem optimalModels_spec (hsound : B.Sound) (hcomplete : B.Complete) (hE : E.Correct)
    (hp : p.Moderate) (hfit : (p.optimalModels B E).Fits σ) :
    ∃ e σ', (p.optimalModels B E).Ends σ (.ok e) σ' ∧
      (∀ v, e.Remaining v ↔ ∃ A, p.Optimal A ∧ v = p.projection.map fun name => (name, A name)) ∧
      ∀ A, p.feasible A = true → ∃ A', p.Optimal A' :=
  optimalModels_ends hsound hcomplete hE hp.narrow hfit

end OptimizationProblem

end JudgmentAggregation
