import JudgmentAggregation.Bound.Threshold
import JudgmentAggregation.Proofs.Bound.Normal
import JudgmentAggregation.Proofs.ListFacts

/-!
# The threshold encoder is correct

The variable of a threshold in a row means that the sum of the terms from this row on reaches it. If
the clauses hold, each true variable says so rightly: by induction over the rows, from the last one
up (`BoundEncoder.rows_sound`). Conversely, every valuation of the variables of the terms extends to
the thresholds by giving each of them the truth value of what it means
(`BoundEncoder.rows_complete`). A threshold may be raised to the next partial sum, since the values
of the later terms are among the partial sums of their weights.
-/

namespace JudgmentAggregation

namespace BoundEncoder

open ListFacts

variable {ts : List (Term Nat)} {t : Term Nat} {row sums ws : List Nat} {b w x first : Nat}
  {N : Valuation Nat}

/-! ### Merging -/

/-- The merge by structural recursion is that of the library. -/
theorem merge_eq {α : Type} (le : α → α → Bool) (as bs : List α) :
    merge le as bs = as.merge bs le := by
  induction as generalizing bs with
  | nil => rw [merge, id_eq, List.nil_merge]
  | cons a as ih =>
    rw [merge]
    induction bs with
    | nil => rw [mergeWith, ih, List.merge_right, List.merge_right]
    | cons b bs ihb => rw [mergeWith, ih, ihb, List.cons_merge_cons]

theorem sort_perm {α : Type} (le : α → α → Bool) (as : List α) : (sort le as).Perm as := by
  induction as with
  | nil => exact .refl []
  | cons a as ih =>
    have hcons : sort le (a :: as) = [a].merge (sort le as) le := merge_eq le [a] _
    rw [hcons]
    exact (List.merge_perm_append le).trans (ih.cons a)

/-! ### Partial sums -/

/-- The partial sums are given in increasing order and without exception, if at all. -/
theorem partialSums_spec (ws : List Nat) :
    partialSums ws = [] ∨ (partialSums ws).Pairwise (· ≤ ·) ∧
      ∀ us, us.Sublist ws → Count.total us ∈ partialSums ws := by
  induction ws with
  | nil =>
    refine .inr ⟨List.pairwise_singleton _ _, fun us hus => ?_⟩
    rw [List.sublist_nil.1 hus]
    exact List.mem_singleton_self 0
  | cons w ws ih =>
    rw [partialSums, merge_eq]
    by_cases hlength : 4096 < ((partialSums ws).merge ((partialSums ws).map (w + ·))
        fun m n => m ≤ n).eraseReps.length
    · exact .inl (if_pos hlength)
    rw [if_neg hlength]
    rcases ih with hnil | ⟨hsorted, hmem⟩
    · exact .inl (by simp [hnil, List.eraseReps, List.eraseRepsBy])
    refine .inr ⟨?_, fun us hus => mem_eraseReps.2 (List.mem_merge.2 ?_)⟩
    · have hmap : ((partialSums ws).map (w + ·)).Pairwise (· ≤ ·) :=
        List.pairwise_map.2 (hsorted.imp fun h => Nat.add_le_add_left h w)
      have hmerge := @List.pairwise_merge Nat (fun m n => decide (m ≤ n))
        (fun a b c => by simpa using Nat.le_trans) (fun a b => by simpa using Nat.le_total a b) _ _
        (hsorted.imp fun h => decide_eq_true h) (hmap.imp fun h => decide_eq_true h)
      exact (hmerge.imp fun h => of_decide_eq_true h).sublist (eraseReps_sublist _)
    · cases hus with
      | cons _ hus => exact .inl (hmem us hus)
      | cons_cons _ hus => exact .inr (List.mem_map.2 ⟨_, hmem _ hus, rfl⟩)

/-- A bound is never rounded down. -/
theorem le_roundUp (sums : List Nat) (b : Nat) : b ≤ roundUp sums b := by
  rw [roundUp]
  cases h : sums.find? (b ≤ ·) with
  | none => exact Nat.le_refl b
  | some c => simpa using List.find?_some h

/-- No partial sum lies between a bound and the one to which it is raised. -/
theorem roundUp_le {us : List Nat} (hus : us.Sublist ws) (hb : b ≤ Count.total us) :
    roundUp (partialSums ws) b ≤ Count.total us := by
  rcases partialSums_spec ws with hnil | ⟨hsorted, hmem⟩
  · rw [hnil]
    exact hb
  · rw [roundUp]
    cases h : (partialSums ws).find? (b ≤ ·) with
    | none =>
      have hfar := List.find?_eq_none.1 h _ (hmem us hus)
      simp [hb] at hfar
    | some c =>
      obtain ⟨-, as, bs, heq, has⟩ := List.find?_eq_some_iff_append.1 h
      rw [heq] at hsorted hmem
      have hle := (List.pairwise_cons.1 (List.pairwise_append.1 hsorted).2.1).1
      rcases List.mem_append.1 (hmem us hus) with hmem | hmem
      · have hfar := has _ hmem
        simp [hb] at hfar
      · rcases List.mem_cons.1 hmem with hmem | hmem
        · exact Nat.le_of_eq hmem.symm
        · exact hle _ hmem

/-- The weights of the true literals are some of the weights. -/
theorem trueWeights_sublist (A : Valuation Nat) (ts : List (Term Nat)) :
    (Term.trueWeights A ts).Sublist (ts.map Term.weight) :=
  List.filter_sublist.map _

/-! ### Rows -/

/-- The thresholds of a row are neither trivial nor out of reach. -/
def InRange (ts : List (Term Nat)) (row : List Nat) : Prop :=
  ∀ b ∈ row, 0 < b ∧ b ≤ Term.total ts

/-- The row that follows on a row of thresholds for the sum of `t` and `ts`. -/
def following (t : Term Nat) (ts : List (Term Nat)) (row : List Nat) : List Nat :=
  nextRow t.weight (Term.total ts) (partialSums (ts.map Term.weight)) row

/-- What a threshold is raised to in the row for `ts`. -/
def raised (ts : List (Term Nat)) (b : Nat) : Nat :=
  roundUp (partialSums (ts.map Term.weight)) b

/-- The following row has what a threshold becomes if the term is false. -/
theorem mem_following (hb : b ∈ row) (hpos : 0 < b) (hle : b ≤ Term.total ts) :
    raised ts b ∈ following t ts row := by
  rw [following, nextRow, merge_eq, mem_eraseReps, List.mem_map]
  exact ⟨b, List.mem_filter.2 ⟨List.mem_merge.2 (.inl hb), by simp [hpos, hle]⟩, rfl⟩

/-- The following row has what the weight of the term leaves of a threshold. -/
theorem mem_following_sub (hb : b ∈ row) (hpos : 0 < b - t.weight)
    (hle : b - t.weight ≤ Term.total ts) : raised ts (b - t.weight) ∈ following t ts row := by
  rw [following, nextRow, merge_eq, mem_eraseReps, List.mem_map]
  refine ⟨b - t.weight, List.mem_filter.2 ⟨List.mem_merge.2 (.inr ?_), ?_⟩, rfl⟩
  · exact List.mem_map.2 ⟨b, hb, rfl⟩
  · simp only [hle, and_true, decide_eq_true_eq]
    exact hpos

/-- The next row has bounds that are neither trivial nor out of reach. -/
theorem inRange_following (t : Term Nat) (ts : List (Term Nat)) (row : List Nat) :
    InRange ts (following t ts row) := by
  intro b hb
  rw [following, nextRow, mem_eraseReps, List.mem_map] at hb
  obtain ⟨c, hc, rfl⟩ := hb
  have hc := (List.mem_filter.1 hc).2
  simp only [decide_eq_true_eq] at hc
  exact ⟨Nat.lt_of_lt_of_le hc.1 (le_roundUp _ c), roundUp_le (.refl _) hc.2⟩

/-- A sum that reaches a threshold reaches what the threshold is raised to. -/
theorem raised_le_value {A : Valuation Nat} (hb : b ≤ Term.value A ts) :
    raised ts b ≤ Term.value A ts :=
  roundUp_le (trueWeights_sublist A ts) hb

/-- If the clause for a threshold is true, so is the variable of this threshold in the row. -/
theorem of_eval_threshold (h : Clause.eval N (threshold row first b) = true) :
    ∃ j, row[j]? = some b ∧ N (first + j) = true := by
  rw [threshold] at h
  cases hj : row.idxOf? b with
  | none => simp [hj, Clause.eval] at h
  | some j =>
    obtain ⟨hlt, hb, -⟩ := List.idxOf?_eq_some_iff.1 hj
    rw [hj] at h
    exact ⟨j, by rw [List.getElem?_eq_getElem hlt, hb],
      by simpa [Clause.eval, Literal.eval, Literal.pos] using h⟩

theorem eval_threshold (hb : b ∈ row) (hN : ∀ j, row[j]? = some b → N (first + j) = true) :
    Clause.eval N (threshold row first b) = true := by
  rw [threshold]
  cases hj : row.idxOf? b with
  | none => exact absurd hb (List.idxOf?_eq_none_iff.1 hj)
  | some j =>
    obtain ⟨hlt, hjb, -⟩ := List.idxOf?_eq_some_iff.1 hj
    have hN := hN j (by rw [List.getElem?_eq_getElem hlt, hjb])
    simp [Clause.eval, Literal.eval, Literal.pos, hN]

/-- The clauses for a threshold state what follows if its variable is true. -/
theorem eval_thresholdClauses {next : List Nat} {start v : Nat} :
    Cnf.eval N (thresholdClauses t (partialSums (ts.map Term.weight)) next start v b) = true ↔
      (N v = true →
        (t.literal.eval N = true ∨ Clause.eval N (threshold next start (raised ts b)) = true) ∧
        (b ≤ t.weight ∨
          Clause.eval N (threshold next start (raised ts (b - t.weight))) = true)) := by
  rw [thresholdClauses, raised, raised]
  by_cases hb : b ≤ t.weight
  · rw [if_pos hb]
    cases hv : N v <;> simp [Cnf.eval, Clause.eval, Literal.eval, Literal.neg, hv, hb]
  · rw [if_neg hb]
    cases hv : N v <;> simp [Cnf.eval, Clause.eval, Literal.eval, Literal.neg, hv, hb]

/-- The clauses for a row and the later ones. -/
theorem eval_rows_cons :
    Cnf.eval N (rows (t :: ts) row first).1 = true ↔
      (∀ j b, row[j]? = some b → Cnf.eval N (thresholdClauses t (partialSums (ts.map Term.weight))
        (following t ts row) (first + row.length) (first + j) b) = true) ∧
      Cnf.eval N (rows ts (following t ts row) (first + row.length)).1 = true := by
  rw [rows]
  simp only [Cnf.eval, List.all_append, Bool.and_eq_true, List.all_flatMap]
  refine and_congr_left fun _ => List.all_eq_true.trans ⟨fun h j b hj => ?_, fun h p hp => ?_⟩
  · refine h (b, first + j) (List.mk_mem_zipIdx_iff_le_and_getElem?_sub.2 ⟨by omega, ?_⟩)
    rw [Nat.add_sub_cancel_left, hj]
  · obtain ⟨hle, hb⟩ := List.mk_mem_zipIdx_iff_le_and_getElem?_sub.1 hp
    have hv := h _ _ hb
    rwa [Nat.add_sub_cancel' hle] at hv

/-- A threshold whose variable is true is reached: by induction over the rows, since what follows
for the next row is reached there. -/
theorem rows_sound (hrow : InRange ts row) (hF : Cnf.eval N (rows ts row first).1 = true) {j : Nat}
    (hj : row[j]? = some b) (hN : N (first + j) = true) : b ≤ Term.value N ts := by
  induction ts generalizing row first b j with
  | nil =>
    have hb := hrow b (List.mem_of_getElem? hj)
    have hzero : Term.total ([] : List (Term Nat)) = 0 := rfl
    omega
  | cons t ts ih =>
    obtain ⟨hclauses, hrest⟩ := eval_rows_cons.1 hF
    have reached {c} (hc : Clause.eval N (threshold (following t ts row) (first + row.length)
        (raised ts c)) = true) : c ≤ Term.value N ts := by
      obtain ⟨k, hk, hNk⟩ := of_eval_threshold hc
      exact Nat.le_trans (le_roundUp _ c) (ih (inRange_following t ts row) hrest hk hNk)
    obtain ⟨hfalse, htrue⟩ := eval_thresholdClauses.1 (hclauses j b hj) hN
    rw [Term.value_cons]
    cases hlit : t.literal.eval N with
    | true =>
      rw [if_pos rfl]
      rcases htrue with hle | hc
      · omega
      · have hle := reached hc
        omega
    | false =>
      have hle := reached (hfalse.resolve_left (by simp [hlit]))
      omega

/-- A valuation **marks** the thresholds of a row that a value reaches. -/
def Marks (N : Valuation Nat) (row : List Nat) (first value : Nat) : Prop :=
  ∀ j b, row[j]? = some b → N (first + j) = decide (b ≤ value)

/-- The variables of a row can be given the values that mark a sum. -/
theorem exists_marks (N : Valuation Nat) (row : List Nat) (first value : Nat) :
    ∃ N', (∀ v < first, N' v = N v) ∧ Marks N' row first value := by
  refine ⟨fun v => if v < first then N v
    else (row[v - first]?.map fun b => decide (b ≤ value)).getD false, fun v hv => if_pos hv,
    fun j b hj => ?_⟩
  have hge : ¬ first + j < first := by omega
  simp only [if_neg hge, Nat.add_sub_cancel_left, hj, Option.map_some, Option.getD_some]

theorem Marks.congr {N' : Valuation Nat} {value : Nat} (h : Marks N row first value)
    (hN : ∀ v < first + row.length, N' v = N v) : Marks N' row first value := fun j b hj => by
  have hlt := (List.getElem?_eq_some_iff.1 hj).1
  rw [hN _ (by omega), h j b hj]

/-- In a row that is marked, the threshold for a bound that is reached is true. -/
theorem Marks.eval_threshold {c : Nat} (h : Marks N row first (Term.value N ts))
    (hc : c ≤ Term.value N ts) (hmem : raised ts c ∈ row) :
    Clause.eval N (threshold row first (raised ts c)) = true :=
  BoundEncoder.eval_threshold hmem fun k hk => by
    rw [h k _ hk, decide_eq_true_eq]
    exact raised_le_value hc

/-- The clauses for a threshold hold where it is marked as it should be and so are those of the next
row. -/
theorem Marks.eval_thresholdClauses {start v : Nat} (hmem : b ∈ row) (hpos : 0 < b)
    (hv : N v = decide (b ≤ Term.value N (t :: ts)))
    (hnext : Marks N (following t ts row) start (Term.value N ts)) :
    Cnf.eval N (thresholdClauses t (partialSums (ts.map Term.weight)) (following t ts row)
      start v b) = true := by
  refine BoundEncoder.eval_thresholdClauses.2 fun hb => ?_
  rw [hv, decide_eq_true_eq, Term.value_cons] at hb
  have hmax := Term.value_le_total N ts
  constructor
  · cases hlit : t.literal.eval N with
    | true => exact .inl rfl
    | false =>
      have hle : b ≤ Term.value N ts := by simpa [hlit] using hb
      exact .inr (hnext.eval_threshold hle (mem_following hmem hpos (by omega)))
  · by_cases hw : b ≤ t.weight
    · exact .inl hw
    · have hle : b - t.weight ≤ Term.value N ts := by split at hb <;> omega
      exact .inr (hnext.eval_threshold hle (mem_following_sub hmem (by omega) (by omega)))

/-- A valuation of the variables of the terms extends to one that marks the thresholds that are
reached. -/
theorem rows_complete (hrow : InRange ts row) (hvar : ∀ t ∈ ts, t.literal.var < first)
    (N : Valuation Nat) :
    ∃ N', (∀ v < first, N' v = N v) ∧ Cnf.eval N' (rows ts row first).1 = true ∧
      Marks N' row first (Term.value N ts) := by
  induction ts generalizing row first N with
  | nil =>
    refine ⟨N, fun _ _ => rfl, rfl, fun j b hj => ?_⟩
    have hb := hrow b (List.mem_of_getElem? hj)
    have hzero : Term.total ([] : List (Term Nat)) = 0 := rfl
    omega
  | cons t ts ih =>
    -- The thresholds of this row are marked first, and the later rows are extended on top of them.
    obtain ⟨N₁, hold₁, hmarks₁⟩ := exists_marks N row first (Term.value N (t :: ts))
    have hvar₁ : ∀ u ∈ ts, u.literal.var < first + row.length := fun u hu =>
      Nat.lt_of_lt_of_le (hvar u (List.mem_cons_of_mem _ hu)) (Nat.le_add_right _ _)
    obtain ⟨N₂, hold₂, hrest, hnext⟩ := ih (inRange_following t ts row) hvar₁ N₁
    have hold : ∀ v < first, N₂ v = N v := fun v hv => by
      rw [hold₂ v (by omega), hold₁ v hv]
    have hmarks := hmarks₁.congr hold₂
    refine ⟨N₂, hold, eval_rows_cons.2 ⟨fun j b hj => ?_, hrest⟩, hmarks⟩
    have hmem := List.mem_of_getElem? hj
    refine Marks.eval_thresholdClauses hmem (hrow b hmem).1 ?_ ?_
    · rw [hmarks j b hj, Term.value_congr fun u hu => hold _ (hvar u hu)]
    · rwa [Term.value_congr fun u hu => hold₂ _ (hvar₁ u hu)]

/-! ### The variables of the clauses -/

/-- The literal for a threshold is on a variable of the row. -/
theorem var_of_mem_threshold {l : Literal Nat} (h : l ∈ threshold row first b) :
    first ≤ l.var ∧ l.var < first + row.length := by
  rw [threshold] at h
  cases hj : row.idxOf? b with
  | none => simp [hj] at h
  | some j =>
    rw [hj] at h
    obtain ⟨hlt, -, -⟩ := List.idxOf?_eq_some_iff.1 hj
    rw [List.mem_singleton.1 h]
    exact ⟨Nat.le_add_right _ _, Nat.add_lt_add_left hlt _⟩

/-- The clauses of a threshold have its variable, that of the term and those of the next row. -/
theorem var_of_mem_thresholdClauses {next : List Nat} {start v : Nat} {c : Clause Nat}
    {l : Literal Nat} (hc : c ∈ thresholdClauses t sums next start v b) (hl : l ∈ c) :
    l.var = v ∨ l.var = t.literal.var ∨ start ≤ l.var ∧ l.var < start + next.length := by
  rw [thresholdClauses] at hc
  rcases List.mem_cons.1 hc with rfl | hc
  · rcases List.mem_cons.1 hl with rfl | hl
    · exact .inl rfl
    · rcases List.mem_cons.1 hl with rfl | hl
      · exact .inr (.inl rfl)
      · exact .inr (.inr (var_of_mem_threshold hl))
  · split at hc
    · cases hc
    · rw [List.mem_singleton.1 hc] at hl
      rcases List.mem_cons.1 hl with rfl | hl
      · exact .inl rfl
      · exact .inr (.inr (var_of_mem_threshold hl))

/-- The clauses are about the variables of the terms and about those from `first` on that they
use. -/
theorem rows_vars (hrow : InRange ts row) :
    first + row.length ≤ (rows ts row first).2 ∧
      ∀ c ∈ (rows ts row first).1, ∀ l ∈ c, (∃ t ∈ ts, t.literal.var = l.var) ∨
        (first ≤ l.var ∧ l.var < (rows ts row first).2) := by
  induction ts generalizing row first with
  | nil =>
    have hnil : row = [] := List.eq_nil_iff_forall_not_mem.2 fun b hb => by
      have hzero : Term.total ([] : List (Term Nat)) = 0 := rfl
      have hb := hrow b hb
      omega
    rw [hnil]
    exact ⟨Nat.le_refl _, fun c hc => by cases hc⟩
  | cons t ts ih =>
    obtain ⟨hfree, hvars⟩ := @ih (following t ts row) (first + row.length)
      (inRange_following t ts row)
    have hrows : rows (t :: ts) row first = ((row.zipIdx first).flatMap (fun p =>
        thresholdClauses t (partialSums (ts.map Term.weight)) (following t ts row)
          (first + row.length) p.2 p.1) ++ (rows ts (following t ts row) (first + row.length)).1,
        (rows ts (following t ts row) (first + row.length)).2) := rfl
    rw [hrows]
    refine ⟨by simp only; omega, fun c hc l hl => ?_⟩
    simp only at hc ⊢
    rcases List.mem_append.1 hc with hc | hc
    · -- A clause of this row is about its own thresholds, the first term and the next row.
      obtain ⟨p, hp, hc⟩ := List.mem_flatMap.1 hc
      have hle := List.le_snd_of_mem_zipIdx hp
      have hlt := List.snd_lt_add_of_mem_zipIdx hp
      rcases var_of_mem_thresholdClauses hc hl with hv | hv | hv
      · exact .inr (by omega)
      · exact .inl ⟨t, List.mem_cons_self, hv.symm⟩
      · exact .inr (by omega)
    · rcases hvars c hc l hl with ⟨u, hu, hv⟩ | hv
      · exact .inl ⟨u, List.mem_cons_of_mem _ hu, hv⟩
      · exact .inr (by omega)

/-! ### The encoder -/

theorem value_perm {us : List (Term Nat)} (h : ts.Perm us) (A : Valuation Nat) :
    Term.value A ts = Term.value A us :=
  Count.total_perm ((h.filter _).map _)

/-- A term without a negative weight is not turned. -/
theorem turn_signed (t : Term Nat) : turn t.signed = t := by
  have hle : ¬ (t.weight : Int) < 0 := by omega
  rw [turn, Term.signed, if_neg hle, Int.natAbs_natCast]

/-- Terms without negative weights take nothing away. -/
theorem deficit_signed (ts : List (Term Nat)) : deficit (ts.map Term.signed) = 0 := by
  have hzero (t : Term Nat) : (-(t.weight : Int)).toNat = 0 := by omega
  have hmap : (ts.map Term.signed).map (fun t => (-t.weight).toNat) = ts.map fun _ => 0 := by
    rw [List.map_map]
    exact List.map_congr_left fun t _ => hzero t
  rw [deficit, hmap, Count.total_map_const, Nat.zero_mul]

/-- On a sum that is admitted, the weights are what they are, and the bound is neither trivial nor
out of reach. -/
theorem thresholds_encode {terms : List (Term Nat)} {bound : Nat}
    (h : Admits terms bound first) :
    thresholds.encode (terms.map Term.signed) bound first =
      let encoding := rows (sort (fun t u => u.weight ≤ t.weight) terms) [bound] first
      ([.pos first] :: encoding.1, encoding.2) := by
  have hturn : (terms.map Term.signed).map turn = terms := by
    rw [List.map_map]
    exact List.map_id'' turn_signed terms
  have hpos := h.bound_pos
  have hle := h.bound_le
  simp only [thresholds, hturn, deficit_signed]
  rw [if_neg (by omega), if_neg (by omega)]
  rfl

/-- **The threshold encoder is correct.** -/
theorem thresholds_correct : thresholds.Correct := by
  intro terms bound first hadmits
  let ts := sort (fun t u => u.weight ≤ t.weight) terms
  have hperm : ts.Perm terms := sort_perm _ _
  have htotal : Term.total ts = Term.total terms := Count.total_perm (hperm.map _)
  have hrow : InRange ts [bound] := fun b hb => by
    rw [List.mem_singleton.1 hb, htotal]
    exact ⟨hadmits.bound_pos, hadmits.bound_le⟩
  have hencode : thresholds.encode (terms.map Term.signed) bound first =
      ([.pos first] :: (rows ts [bound] first).1, (rows ts [bound] first).2) :=
    thresholds_encode hadmits
  obtain ⟨hfree, hvars⟩ := @rows_vars ts [bound] first hrow
  rw [List.length_singleton] at hfree
  rw [hencode]
  refine ⟨by simp only; omega, fun c hc l hl => ?_, fun A => ?_⟩
  · rcases List.mem_cons.1 hc with rfl | hc
    · rw [List.mem_singleton.1 hl]
      exact .inr ⟨Nat.le_refl _, hfree⟩
    · rcases hvars c hc l hl with ⟨t, ht, hv⟩ | hv
      · exact .inl ⟨t, hperm.subset ht, hv⟩
      · exact .inr hv
  -- The first row has the bound for its only threshold, and this one has to be reached.
  have hcons (A' : Valuation Nat) : Cnf.eval A' ([.pos first] :: (rows ts [bound] first).1) = true ↔
      A' first = true ∧ Cnf.eval A' (rows ts [bound] first).1 = true := by
    simp [Cnf.eval, Clause.eval, Literal.eval, Literal.pos]
  rw [← value_perm hperm A]
  have hlt : ∀ t ∈ ts, t.literal.var < first := fun t ht => hadmits.var_lt t (hperm.subset ht)
  constructor
  · rintro ⟨A', hA', hF⟩
    obtain ⟨hfirst, hF⟩ := (hcons A').1 hF
    have hle := rows_sound (j := 0) hrow hF rfl hfirst
    rwa [Term.value_congr fun t ht => hA' _ (hlt t ht)] at hle
  · intro hle
    obtain ⟨A', hA', hF, hfirst⟩ := rows_complete hrow hlt A
    exact ⟨A', hA', (hcons A').2 ⟨(hfirst 0 bound rfl).trans (decide_eq_true hle), hF⟩⟩

end BoundEncoder

end JudgmentAggregation
