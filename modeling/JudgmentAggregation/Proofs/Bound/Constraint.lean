import JudgmentAggregation.Bound.Constraint
import JudgmentAggregation.Proofs.Bound.Normal
import JudgmentAggregation.Proofs.Sat.VariableIndex
import JudgmentAggregation.Proofs.Session

/-!
# Bounds mean what they say

A store **adds** a condition to another one (`Store.Adds`) when the clauses of the new store imply
those of the old one and the condition, and every valuation that meets both can be changed on the
new variables so as to satisfy the new clauses. Conditions that are about the old variables only
can be added one after the other (`Store.Adds.trans`).

With a correct encoder, a lower bound adds that the weighted sum reaches it and an upper bound that
the sum does not exceed it, in both cases unless the guard is false (`Store.atLeast_spec`,
`Store.atMost_spec`). The values of the sum have to lie less than 2⁶³ apart, for the weights are
read as signed numbers, and the variables have to be below 2³¹, for the literals are (`Run.Fits`).
Then the encoder is given the sum as it is, and what it gives is taken as it is
(`Store.encode_ends`). Nothing is required of the bound.
-/

namespace JudgmentAggregation

namespace Store

variable {γ : Type} {s s' s'' : Store} {C D : Valuation Nat → Prop} {N N' : Valuation Nat}
  {E : BoundEncoder} {ts : List (Term Nat)} {bound : Nat} {guard : Option (Literal Nat)}
  {σ : Session γ}

/-- A valuation satisfies the clauses of a store. -/
def Holds (s : Store) (N : Valuation Nat) : Prop :=
  Cnf.eval N s.solver.clauses = true

/-- The index is orderly, and the clauses are about its numbers. -/
structure Orderly (s : Store) : Prop where
  index : s.index.Orderly
  var_le : ∀ c ∈ s.solver.clauses, ∀ l ∈ c, l.var ≤ s.index.size

/-- Two valuations have the same values on the numbers that a store has given. -/
def Same (s : Store) (N N' : Valuation Nat) : Prop :=
  ∀ v ≤ s.index.size, N' v = N v

/-- The new store has the clauses of the old one and, on new variables, some that mean the
condition. -/
structure Adds (s s' : Store) (C : Valuation Nat → Prop) : Prop where
  orderly : s'.Orderly
  names_eq : s'.index.names = s.index.names
  size_le : s.index.size ≤ s'.index.size
  sound : ∀ N, s'.Holds N → s.Holds N ∧ C N
  complete : ∀ N, s.Holds N → C N → ∃ N', s.Same N N' ∧ s'.Holds N'

/-- Valuations that agree on the numbers given hold alike. -/
theorem Orderly.holds_of_same (h : s.Orderly) (hN : s.Same N N') (hs : s.Holds N) : s.Holds N' := by
  rw [Holds, ← hs]
  exact Cnf.eval_congr fun c hc l hl => hN _ (h.var_le c hc l hl)

theorem Adds.refl (h : s.Orderly) : s.Adds s fun _ => True :=
  ⟨h, rfl, Nat.le_refl _, fun _ hN => ⟨hN, trivial⟩, fun N hN _ => ⟨N, fun _ _ => rfl, hN⟩⟩

theorem Adds.congr (h : s.Adds s' C) (hCD : ∀ N, C N ↔ D N) : s.Adds s' D where
  orderly := h.orderly
  names_eq := h.names_eq
  size_le := h.size_le
  sound N hN := (h.sound N hN).imp_right (hCD N).1
  complete N hN hD := h.complete N hN ((hCD N).2 hD)

/-- Conditions are added one after the other, if the second one is about old variables. -/
theorem Adds.trans (h : s.Adds s' C) (h' : s'.Adds s'' D)
    (hD : ∀ N N', s.Same N N' → D N → D N') : s.Adds s'' fun N => C N ∧ D N where
  orderly := h'.orderly
  names_eq := h'.names_eq.trans h.names_eq
  size_le := Nat.le_trans h.size_le h'.size_le
  sound N hN := by
    obtain ⟨hs', hDN⟩ := h'.sound N hN
    obtain ⟨hs, hCN⟩ := h.sound N hs'
    exact ⟨hs, hCN, hDN⟩
  complete N hN hCD := by
    obtain ⟨N₁, hsame, hN₁⟩ := h.complete N hN hCD.1
    obtain ⟨N₂, hsame', hN₂⟩ := h'.complete N₁ hN₁ (hD N N₁ hsame hCD.2)
    exact ⟨N₂, fun v hv => (hsame' v (Nat.le_trans hv h.size_le)).trans (hsame v hv), hN₂⟩

/-! ### Guarded clauses -/

/-- The guard is true, or there is none. -/
def Active (guard : Option (Literal Nat)) (N : Valuation Nat) : Prop :=
  ∀ g, guard = some g → g.eval N = true

/-- The guard is about a number that the store has given. -/
def GuardKnown (s : Store) (guard : Option (Literal Nat)) : Prop :=
  ∀ g, guard = some g → g.var ≤ s.index.size

/-- The terms are about numbers that the store has given. -/
def TermsKnown (s : Store) (ts : List (Term Nat)) : Prop :=
  ∀ t ∈ ts, 0 < t.literal.var ∧ t.literal.var ≤ s.index.size

theorem GuardKnown.mono (h : s.GuardKnown guard) (hle : s.index.size ≤ s'.index.size) :
    s'.GuardKnown guard :=
  fun g hguard => Nat.le_trans (h g hguard) hle

theorem TermsKnown.mono (h : s.TermsKnown ts) (hle : s.index.size ≤ s'.index.size) :
    s'.TermsKnown ts :=
  fun t ht => ⟨(h t ht).1, Nat.le_trans (h t ht).2 hle⟩

/-- A clause under a guard is true when it is true itself or the guard does not count. -/
theorem eval_guardClause (guard : Option (Literal Nat)) (c : Clause Nat) (N : Valuation Nat) :
    Clause.eval N (guardClause guard c) = true ↔ (Active guard N → Clause.eval N c = true) := by
  cases guard with
  | none => simp [guardClause, Active]
  | some g =>
    rw [guardClause, Clause.eval, List.any_append, ← Clause.eval]
    cases h : g.eval N <;> simp [Active, h]

/-- A clause under a guard has the variables of the clause and that of the guard. -/
theorem var_of_mem_guardClause {c : Clause Nat} {l : Literal Nat} (h : l ∈ guardClause guard c) :
    l ∈ c ∨ ∃ g, guard = some g ∧ l.var = g.var := by
  cases guard with
  | none => exact .inl h
  | some g =>
    rcases List.mem_append.1 h with h | h
    · exact .inl h
    · rw [List.mem_singleton.1 h]
      exact .inr ⟨g, rfl, rfl⟩

/-- Whether a guard counts is a matter of the numbers given so far. -/
theorem active_congr (hg : s.GuardKnown guard) (hN : s.Same N N') :
    Active guard N' ↔ Active guard N := by
  refine forall₂_congr fun g hguard => ?_
  rw [Literal.eval, Literal.eval, hN _ (hg g hguard)]

/-- Clauses on new variables add what they mean. -/
theorem adds_of_clauses {F : Cnf Nat} {n : Nat} (h : s.Orderly)
    (hvar : ∀ c ∈ F, ∀ l ∈ c, l.var ≤ s.index.size + n) (hsound : ∀ N, F.eval N = true → C N)
    (hcomplete : ∀ N, s.Holds N → C N → ∃ N', s.Same N N' ∧ F.eval N' = true) :
    s.Adds ⟨s.solver.addAll F, s.index.allocate n⟩ C where
  orderly := by
    refine ⟨h.index.allocate n, fun c hc l hl => ?_⟩
    rw [Solver.clauses_addAll, List.mem_append, List.mem_reverse] at hc
    rcases hc with hc | hc
    · exact hvar c hc l hl
    · exact Nat.le_trans (h.var_le c hc l hl) (Nat.le_add_right _ _)
  names_eq := rfl
  size_le := Nat.le_add_right _ _
  sound N hN := by
    rw [Holds, Solver.eval_addAll, Bool.and_eq_true] at hN
    exact ⟨hN.2, hsound N hN.1⟩
  complete N hN hC := by
    obtain ⟨N', hsame, hF⟩ := hcomplete N hN hC
    refine ⟨N', hsame, ?_⟩
    rw [Holds, Solver.eval_addAll, Bool.and_eq_true]
    exact ⟨hF, h.holds_of_same hsame hN⟩

/-- Where nothing satisfies a bound, its guard does not count. -/
theorem forbid_spec (h : s.Orderly) (hg : s.GuardKnown guard) :
    s.Adds (s.forbid guard) fun N => ¬ Active guard N := by
  have heval (N) : Cnf.eval N [guardClause guard []] = true ↔ ¬ Active guard N := by
    have hclause := eval_guardClause guard [] N
    simpa [Cnf.eval, Clause.eval] using hclause
  refine adds_of_clauses (n := 0) h ?_ (fun N => (heval N).1) fun N _ hN => ?_
  · intro c hc l hl
    rw [List.mem_singleton.1 hc] at hl
    rcases var_of_mem_guardClause hl with hl | ⟨g, hguard, hv⟩
    · cases hl
    · exact hv ▸ hg g hguard
  · exact ⟨N, fun _ _ => rfl, (heval N).2 hN⟩

/-! ### Encodings -/

/-- What a store becomes by the clauses for a bound, if all the numbers fit. -/
def encoded (E : BoundEncoder) (ts : List (Term Nat)) (bound : Nat)
    (guard : Option (Literal Nat)) (s : Store) : Store :=
  let first := s.index.size + 1
  let (F, free) := E.encode (ts.map Term.signed) bound first
  ⟨s.solver.addAll (F.map (guardClause guard)), s.index.allocate (free - first)⟩

/-- Clauses that mean a bound on new variables, each under the guard. -/
theorem encoded_spec (hE : E.Correct) (h : s.Orderly) (hg : s.GuardKnown guard)
    (hadmits : BoundEncoder.Admits ts bound (s.index.size + 1)) :
    s.Adds (s.encoded E ts bound guard) fun N => Active guard N → bound ≤ Term.value N ts := by
  obtain ⟨hfree, hvars, hmeans⟩ := hE ts bound (s.index.size + 1) hadmits
  let F := (E.encode (ts.map Term.signed) bound ((s.index.size + 1 : Nat) : Int)).1
  let free := (E.encode (ts.map Term.signed) bound ((s.index.size + 1 : Nat) : Int)).2
  have heval (N) : Cnf.eval N (F.map (guardClause guard)) = true ↔
      (Active guard N → Cnf.eval N F = true) := by
    simp only [Cnf.eval, List.all_eq_true, List.mem_map, forall_exists_index, and_imp,
      forall_apply_eq_imp_iff₂, eval_guardClause]
    exact ⟨fun hF hact c hc => hF c hc hact, fun hF c hc hact => hF hact c hc⟩
  show s.Adds ⟨s.solver.addAll (F.map (guardClause guard)),
    s.index.allocate (free - (s.index.size + 1))⟩ _
  refine adds_of_clauses h ?_ (fun N hN hact => ?_) fun N _ hN => ?_
  · intro c hc l hl
    obtain ⟨d, hd, rfl⟩ := List.mem_map.1 hc
    rcases var_of_mem_guardClause hl with hl | ⟨g, hguard, hv⟩
    · rcases hvars d hd l hl with ⟨t, ht, hv⟩ | ⟨-, hv⟩
      · have hlt := hadmits.var_lt t ht
        omega
      · omega
    · have hle := hg g hguard
      omega
  · exact (hmeans N).1 ⟨N, fun _ _ => rfl, (heval N).1 hN hact⟩
  · -- A guard that is not active makes the clauses true, whatever the auxiliary variables are.
    by_cases hact : Active guard N
    · obtain ⟨N', hsame, hF⟩ := (hmeans N).2 (hN hact)
      exact ⟨N', fun v hv => hsame v (Nat.lt_succ_of_le hv), (heval N').2 fun _ => hF⟩
    · exact ⟨N, fun _ _ => rfl, (heval N).2 fun h => absurd h hact⟩

/-- All that an encoding tells of are numbers. -/
theorem encode_tells {P : Event → Prop} (hP : ∀ v, P (.numbered v)) (E : BoundEncoder)
    (ts : List (Term Nat)) (bound : Nat) (guard : Option (Literal Nat)) (s : Store) :
    (s.encode E ts bound guard : Run γ Store).Tells P :=
  (Run.tells_record (hP _)).bind fun _ => (Run.tells_ofResult _).bind fun _ =>
    (Run.tells_record (hP _)).bind fun _ => Run.tells_ofResult _

/-- Clauses on narrow variables come back as they are. -/
theorem mapM_narrow {F : Cnf Nat}
    (hF : ∀ c ∈ F, ∀ l ∈ c, 0 < l.var ∧ l.var < 2147483648) :
    (F.mapM fun c => c.mapM Literal.narrow) = .ok F := by
  have hclause : ∀ c ∈ F, c.mapM Literal.narrow = .ok c := fun c hc => by
    rw [Result.mapM_eq_ok fun l hl => Literal.narrow_of_lt (hF c hc l hl).1 (hF c hc l hl).2,
      List.map_id']
  rw [Result.mapM_eq_ok hclause, List.map_id']

/-- Narrow variables and clauses on such variables are taken as they are. -/
theorem receive_eq (guard : Option (Literal Nat)) {first free : Nat} {F : Cnf Nat}
    (hfirst : first = s.index.size + 1) (hle : first ≤ free)
    (hfree : free < 2147483648) (hF : ∀ c ∈ F, ∀ l ∈ c, 0 < l.var ∧ l.var < 2147483648) :
    s.receive guard first F free =
      .ok ⟨s.solver.addAll (F.map (guardClause guard)), s.index.allocate (free - first)⟩ := by
  have hcapacity : VariableIndex.capacity = 384307168202282325 := by decide
  have hreserve : s.index.reserve (free - first) = .ok (s.index.allocate (free - first)) :=
    if_pos (by omega)
  rw [receive, Word32.low_of_lt (by omega) (by omega), ← Int.ofNat_sub hle,
    Word32.check_eq_ok (by omega) (by omega), Result.ok_bind, if_neg (by omega), Int.toNat_natCast,
    hreserve, mapM_narrow hF]
  rfl

/-- If all the numbers fit, the encoder is given the sum as it is, and its clauses are added. -/
theorem encode_ends (hE : E.Correct)
    (hadmits : s.index.size + 1 < 2147483648 →
      BoundEncoder.Admits ts bound (s.index.size + 1))
    (hfit : (s.encode E ts bound guard : Run γ Store).Fits σ) :
    BoundEncoder.Admits ts bound (s.index.size + 1) ∧
      ∃ σ', (s.encode E ts bound guard).Ends σ (.ok (s.encoded E ts bound guard)) σ' := by
  rw [encode] at hfit ⊢
  have hfirst : s.index.size + 1 < 2147483648 := hfit.narrow <| (Run.tells_ofResult _).bind fun _ =>
    (Run.tells_record trivial).bind fun _ => Run.tells_ofResult _
  have hadmits := hadmits hfirst
  obtain ⟨hle, hvars, -⟩ := hE ts bound (s.index.size + 1) hadmits
  have hcheck : Word32.check (1 + Word32.low s.index.size) =
      .ok ((s.index.size + 1 : Nat) : Int) := by
    rw [Word32.low_of_lt (by omega) (by omega), Word32.check_eq_ok (by omega) (by omega)]
    exact congrArg Except.ok (by omega)
  -- No cast changes anything: the first variable, the terms and the bound stay what they are.
  have hwords : ts.map Term.toWords = ts.map Term.signed := List.map_congr_left fun t ht => by
    have hlt := hadmits.var_lt t ht
    exact Term.toWords_of_lt (hadmits.var_pos t ht) (by omega)
      (Nat.lt_of_le_of_lt (Term.weight_le_total ht) hadmits.total_lt)
  have hbound : Count.signed bound = bound :=
    Count.signed_of_lt (Nat.lt_of_le_of_lt hadmits.bound_le hadmits.total_lt)
  rw [hcheck, hwords, hbound] at hfit ⊢
  have hfit := hfit.of_record.of_ofResult rfl
  have hfree : (E.encode (ts.map Term.signed) bound ((s.index.size + 1 : Nat) : Int)).2 <
      2147483648 := hfit.narrow (Run.tells_ofResult _)
  -- The way back is the same: the variables of the clauses are those given or those used up.
  have hreceive := receive_eq guard rfl hle hfree fun c hc l hl => by
    rcases hvars c hc l hl with ⟨t, ht, hv⟩ | hv
    · have hpos := hadmits.var_pos t ht
      have hlt := hadmits.var_lt t ht
      omega
    · omega
  exact ⟨hadmits, _, (Run.ends_record _ σ).bind ((Run.ends_ofResult _ _).bind
    ((Run.ends_record _ _).bind (Run.ends_ok hreceive _)))⟩

/-! ### Lower and upper bounds -/

/-- What is done for a lower bound, once its normal form is known to be one of counts. -/
theorem atLeast_eq {n : Term.Normal} (hn : Term.normalize ts = .ok n)
    (htotal : Term.total n.terms < Count.limit) (s : Store) (bound : Nat) :
    (s.atLeast E ts bound guard : Run γ Store) =
      if bound ≤ n.constant then pure s
      else if Term.total n.terms < bound - n.constant then pure (s.forbid guard)
      else s.encode E n.terms (bound - n.constant) guard := by
  have hsum : Count.sum (n.terms.map Term.weight) = .ok (Term.total n.terms) :=
    Count.sum_eq_ok htotal
  simp only [atLeast, Run.ofResult_bind hn, Run.ofResult_bind hsum]

/-- What is done for an upper bound, once its normal form is known to be one of counts. -/
theorem atMost_eq {n : Term.Normal} (hn : Term.normalize ts = .ok n)
    (htotal : Term.total n.terms < Count.limit) (s : Store) (bound : Nat) :
    (s.atMost E ts bound guard : Run γ Store) =
      if bound < n.constant then pure (s.forbid guard)
      else if Term.total n.terms ≤ bound - n.constant then pure s
      else s.encode E (n.terms.map Term.negate) (Term.total n.terms - (bound - n.constant))
        guard := by
  have hsum : Count.sum (n.terms.map Term.weight) = .ok (Term.total n.terms) :=
    Count.sum_eq_ok htotal
  simp only [atMost, Run.ofResult_bind hn, Run.ofResult_bind hsum]

/-- The ways in which a bound on a sum is added: not at all, by forbidding the guard, or by the
clauses for a sum that the encoder admits. -/
inductive Posts (E : BoundEncoder) (ts : List (Term Nat)) (guard : Option (Literal Nat))
    (s : Store) : Store → Prop
  | nothing : Posts E ts guard s s
  | forbidden : Posts E ts guard s (s.forbid guard)
  | encoded {us : List (Term Nat)} {b : Nat}
    (hadmits : BoundEncoder.Admits us b (s.index.size + 1))
    (hvar : ∀ u ∈ us, ∃ t ∈ ts, t.literal.var = u.literal.var) :
    Posts E ts guard s (s.encoded E us b guard)

section Bounds

variable (hE : E.Correct) (h : s.Orderly) (hg : s.GuardKnown guard) (hknown : s.TermsKnown ts)

include hknown in
/-- Terms in normal form, over the variables of known ones, are such as an encoder deals with. -/
theorem TermsKnown.admits {us : List (Term Nat)} (hpos : ∀ u ∈ us, 0 < u.weight)
    (hnodup : (us.map fun u => u.literal.var).Nodup)
    (hvar : ∀ u ∈ us, ∃ t ∈ ts, t.literal.var = u.literal.var) (hbound : 0 < bound)
    (hle : bound ≤ Term.total us) (htotal : Term.total us < 9223372036854775808)
    (hfirst : s.index.size + 1 < 2147483648) :
    BoundEncoder.Admits us bound (s.index.size + 1) := by
  have hknown' : ∀ u ∈ us, 0 < u.literal.var ∧ u.literal.var ≤ s.index.size := fun u hu => by
    obtain ⟨t, ht, hv⟩ := hvar u hu
    exact hv ▸ hknown t ht
  exact ⟨hpos, htotal, hnodup, fun u hu => (hknown' u hu).1,
    fun u hu => Nat.lt_succ_of_le (hknown' u hu).2, hfirst, hbound, hle⟩

variable (hts : Term.Narrow ts)
include hE h hg hknown hts

/-- A lower bound adds that the sum reaches it where the guard is true. -/
theorem atLeast_spec (bound : Nat)
    (hfit : (s.atLeast E ts bound guard : Run γ Store).Fits σ) :
    ∃ s' σ', (s.atLeast E ts bound guard).Ends σ (.ok s') σ' ∧ Posts E ts guard s s' ∧
      s.Adds s' fun N => Active guard N → bound ≤ Term.value N ts := by
  have hlt := hts.total_lt
  obtain ⟨n, hn, hnormal⟩ := Term.normalize_spec hlt
  have hle := hnormal.total_le
  have hsigned := hnormal.total_lt hts
  have hvalue := hnormal.value_eq
  have hmax (N) := Term.value_le_total N n.terms
  rw [atLeast_eq hn (by omega)] at hfit ⊢
  split_ifs at hfit ⊢ with hlow hhigh
  · refine ⟨s, σ, Run.ends_pure _ _, .nothing, (Adds.refl h).congr fun N => ?_⟩
    have hN := hvalue N
    exact iff_of_true trivial fun _ => by omega
  · refine ⟨_, σ, Run.ends_pure _ _, .forbidden, (forbid_spec h hg).congr fun N => ?_⟩
    have hN := hvalue N
    have hmaxN := hmax N
    -- Even all the true weights together are too few.
    have hfar : ¬ bound ≤ Term.value N ts := by omega
    exact (imp_congr_right fun _ => iff_false_intro hfar).symm
  · obtain ⟨hadmits, σ', hends⟩ := encode_ends hE (hknown.admits hnormal.weight_pos
      hnormal.nodup hnormal.var_mem (by omega) (by omega) (by omega)) hfit
    refine ⟨_, σ', hends, .encoded hadmits hnormal.var_mem,
      (encoded_spec hE h hg hadmits).congr fun N => ?_⟩
    have hN := hvalue N
    exact forall_congr' fun _ => by omega

/-- An upper bound adds that the sum does not exceed it where the guard is true. -/
theorem atMost_spec (bound : Nat)
    (hfit : (s.atMost E ts bound guard : Run γ Store).Fits σ) :
    ∃ s' σ', (s.atMost E ts bound guard).Ends σ (.ok s') σ' ∧ Posts E ts guard s s' ∧
      s.Adds s' fun N => Active guard N → Term.value N ts ≤ bound := by
  have hlt := hts.total_lt
  obtain ⟨n, hn, hnormal⟩ := Term.normalize_spec hlt
  have hle := hnormal.total_le
  have hsigned := hnormal.total_lt hts
  have hvalue := hnormal.value_eq
  have hmax (N) := Term.value_le_total N n.terms
  rw [atMost_eq hn (by omega)] at hfit ⊢
  split_ifs at hfit ⊢ with hlow hhigh
  · refine ⟨_, σ, Run.ends_pure _ _, .forbidden, (forbid_spec h hg).congr fun N => ?_⟩
    have hN := hvalue N
    have hfar : ¬ Term.value N ts ≤ bound := by omega
    exact (imp_congr_right fun _ => iff_false_intro hfar).symm
  · refine ⟨s, σ, Run.ends_pure _ _, .nothing, (Adds.refl h).congr fun N => ?_⟩
    have hN := hvalue N
    have hmaxN := hmax N
    exact iff_of_true trivial fun _ => by omega
  · have hnodup : ((n.terms.map Term.negate).map fun t => t.literal.var).Nodup := by
      rw [List.map_map]
      exact hnormal.nodup
    have hvar : ∀ u ∈ n.terms.map Term.negate, ∃ t ∈ ts, t.literal.var = u.literal.var :=
      List.forall_mem_map.2 hnormal.var_mem
    have hnegate := Term.total_negate n.terms
    have hpos : ∀ u ∈ n.terms.map Term.negate, 0 < u.weight :=
      List.forall_mem_map.2 hnormal.weight_pos
    obtain ⟨hadmits, σ', hends⟩ := encode_ends hE
      (hknown.admits hpos hnodup hvar (by omega) (by omega) (by omega)) hfit
    refine ⟨_, σ', hends, .encoded hadmits hvar,
      (encoded_spec hE h hg hadmits).congr fun N => ?_⟩
    -- The false literals have what the true ones leave of the weights.
    have hfalse := Term.value_negate N n.terms
    have hN := hvalue N
    exact forall_congr' fun _ => by omega

end Bounds

/-- All that a bound tells of are numbers. -/
theorem atLeast_tells {P : Event → Prop} (hP : ∀ v, P (.numbered v)) (E : BoundEncoder)
    (ts : List (Term Nat)) (bound : Nat) (guard : Option (Literal Nat)) (s : Store) :
    (s.atLeast E ts bound guard : Run γ Store).Tells P := by
  refine (Run.tells_ofResult _).bind fun n => ?_
  split_ifs
  · exact Run.tells_pure s
  · refine (Run.tells_ofResult _).bind fun total => ?_
    split_ifs
    · exact Run.tells_pure _
    · exact encode_tells hP E _ _ guard s

theorem atMost_tells {P : Event → Prop} (hP : ∀ v, P (.numbered v)) (E : BoundEncoder)
    (ts : List (Term Nat)) (bound : Nat) (guard : Option (Literal Nat)) (s : Store) :
    (s.atMost E ts bound guard : Run γ Store).Tells P := by
  refine (Run.tells_ofResult _).bind fun n => ?_
  split_ifs
  · exact Run.tells_pure _
  · refine (Run.tells_ofResult _).bind fun total => ?_
    split_ifs
    · exact Run.tells_pure s
    · exact encode_tells hP E _ _ guard s

end Store

end JudgmentAggregation
