import JudgmentAggregation.Proofs.Rule.Objective
import JudgmentAggregation.Proofs.Rule.Select

/-!
# Descending agreements as numbers of misses

A descending list over some numbers is made of runs, one for each of the numbers from the greatest
to the least, and two such lists compare as the lengths of their runs do (`lex_runs`). So the
descending agreements of two outcomes compare as the numbers of labels with each agreement, and
these compare the other way round as the numbers of labels that could have the agreement and miss
it: the number of those that have it or miss it is the same for all outcomes. For outcomes that give
every label a value, the comparison of one with another by the tiers is therefore that of their
descending agreements, turned round (`Scenario.misses_exact`).
-/

namespace JudgmentAggregation

namespace Scenario

variable {s : Scenario} {V xs ys ms ns : List Nat} {v n : Nat} {o o' : Outcome}
  {A : Valuation String}

/-! ### Descending lists -/

/-- Inserting a number adds it and nothing else. -/
theorem perm_insertDescending (n : Nat) (ms : List Nat) :
    (insertDescending n ms).Perm (n :: ms) := by
  induction ms with
  | nil => exact .refl _
  | cons m ms ih =>
    rw [insertDescending]
    split
    · exact .refl _
    · exact (ih.cons m).trans (.swap n m ms)

/-- Inserting a number keeps a list descending. -/
theorem pairwise_insertDescending (h : ms.Pairwise (· ≥ ·)) :
    (insertDescending n ms).Pairwise (· ≥ ·) := by
  induction ms with
  | nil => exact List.pairwise_singleton _ _
  | cons m ms ih =>
    obtain ⟨hm, hms⟩ := List.pairwise_cons.1 h
    rw [insertDescending]
    split
    · next hle =>
      refine List.pairwise_cons.2 ⟨?_, h⟩
      intro k hk
      rcases List.mem_cons.1 hk with rfl | hk
      · exact hle
      · exact Nat.le_trans (hm k hk) hle
    · next hlt =>
      refine List.pairwise_cons.2 ⟨?_, ih hms⟩
      intro k hk
      rcases List.mem_cons.1 ((perm_insertDescending n ms).mem_iff.1 hk) with rfl | hk
      · exact Nat.le_of_not_le hlt
      · exact hm k hk

/-- Sorting keeps the numbers. -/
theorem perm_descending (ns : List Nat) : (descending ns).Perm ns := by
  induction ns with
  | nil => exact .refl _
  | cons n ns ih => exact (perm_insertDescending n (descending ns)).trans (ih.cons n)

theorem pairwise_descending (ns : List Nat) : (descending ns).Pairwise (· ≥ ·) := by
  induction ns with
  | nil => exact .nil
  | cons n ns ih => exact pairwise_insertDescending ih

/-- The descending order of some numbers does not depend on the order that they had. -/
theorem descending_eq_of_perm {ms ns : List Nat} (h : ms.Perm ns) :
    descending ms = descending ns := by
  refine List.Perm.eq_of_pairwise ?_ (pairwise_descending ms) (pairwise_descending ns) ?_
  · exact fun a b _ _ hab hba => Nat.le_antisymm hba hab
  · exact (perm_descending ms).trans (h.trans (perm_descending ns).symm)

/-! ### Runs -/

/-- The list with a run of each of some numbers, of a given length. -/
def runs (V : List Nat) (f : Nat → Nat) : List Nat :=
  V.flatMap fun v => List.replicate (f v) v

/-- Runs of lesser values have lesser numbers only. -/
theorem lt_of_mem_runs {f : Nat → Nat} (hV : ∀ w ∈ V, w < v) : ∀ x ∈ runs V f, x < v := by
  intro x hx
  obtain ⟨w, hw, hx⟩ := List.mem_flatMap.1 hx
  rw [List.eq_of_mem_replicate hx]
  exact hV w hw

/-- Lists that start with runs of a number and go on below it. -/
theorem lex_replicate_append {a b : Nat} (hxs : ∀ x ∈ xs, x < v) (hys : ∀ y ∈ ys, y < v) :
    List.Lex (· < ·) (List.replicate a v ++ xs) (List.replicate b v ++ ys) ↔
      a < b ∨ a = b ∧ List.Lex (· < ·) xs ys := by
  induction a generalizing b with
  | zero =>
    cases b with
    | zero => simp
    | succ b =>
      -- The second list starts with `v`, and the first one is below it from the start.
      refine iff_of_true ?_ (.inl (Nat.succ_pos b))
      rw [List.replicate_zero, List.nil_append, List.replicate_succ, List.cons_append]
      cases xs with
      | nil => exact .nil
      | cons x xs => exact .rel (hxs x List.mem_cons_self)
  | succ a ih =>
    cases b with
    | zero =>
      refine iff_of_false ?_ (by omega)
      rw [List.replicate_zero, List.nil_append, List.replicate_succ, List.cons_append]
      intro h
      cases ys with
      | nil => cases h
      | cons y ys =>
        have hy := hys y List.mem_cons_self
        rcases List.cons_lex_cons_iff.1 h with hlt | ⟨heq, -⟩ <;> omega
    | succ b =>
      rw [List.replicate_succ, List.replicate_succ, List.cons_append, List.cons_append,
        List.cons_lex_cons_iff, ih]
      simp

/-- Lists made of runs compare as the lengths of the runs do. -/
theorem lex_runs {f g : Nat → Nat} (hV : V.Pairwise (· > ·)) :
    List.Lex (· < ·) (runs V f) (runs V g) ↔ List.Lex (· < ·) (V.map f) (V.map g) := by
  induction V with
  | nil => simp [runs]
  | cons v V ih =>
    obtain ⟨hv, hV⟩ := List.pairwise_cons.1 hV
    have hcons (f : Nat → Nat) : runs (v :: V) f = List.replicate (f v) v ++ runs V f := rfl
    rw [hcons, hcons, lex_replicate_append (lt_of_mem_runs hv) (lt_of_mem_runs hv), ih hV,
      List.map_cons, List.map_cons, List.cons_lex_cons_iff]

/-- Runs of descending values are descending. -/
theorem pairwise_runs (hV : V.Pairwise (· > ·)) (f : Nat → Nat) :
    (runs V f).Pairwise (· ≥ ·) := by
  induction V with
  | nil => exact .nil
  | cons v V ih =>
    obtain ⟨hv, hV⟩ := List.pairwise_cons.1 hV
    refine List.pairwise_append.2 ⟨?_, ih hV, ?_⟩
    · exact List.pairwise_replicate.2 (.inr (Nat.le_refl v))
    · intro x hx y hy
      rw [List.eq_of_mem_replicate hx]
      exact Nat.le_of_lt (lt_of_mem_runs hv y hy)

/-- A run has as many of its value as it is long. -/
theorem count_runs (hV : V.Pairwise (· > ·)) (f : Nat → Nat) (v : Nat) :
    (runs V f).count v = if v ∈ V then f v else 0 := by
  induction V with
  | nil => rfl
  | cons w V ih =>
    obtain ⟨hw, hV⟩ := List.pairwise_cons.1 hV
    have hcons : runs (w :: V) f = List.replicate (f w) w ++ runs V f := rfl
    rw [hcons, List.count_append, ih hV, List.count_replicate]
    by_cases hvw : v = w
    · have hnot : w ∉ V := fun hmem => Nat.lt_irrefl w (hw w hmem)
      simp [hvw, hnot]
    · simp [hvw, Ne.symm hvw]

/-- A descending list is made of runs: the run of a number is as long as the number is frequent. -/
theorem descending_eq_runs (hV : V.Pairwise (· > ·)) (hns : ∀ n ∈ ns, n ∈ V) :
    descending ns = runs V fun v => ns.count v := by
  -- Both lists are descending and have the same numbers equally often.
  refine List.Perm.eq_of_pairwise ?_ (pairwise_descending ns) (pairwise_runs hV _) ?_
  · exact fun a b _ _ hab hba => Nat.le_antisymm hba hab
  · refine List.perm_iff_count.2 fun v => ?_
    rw [(perm_descending ns).count_eq, count_runs hV]
    split
    · rfl
    · next hv => exact List.count_eq_zero.2 fun hmem => hv (hns v hmem)

/-- Numbers compare the other way round as what is missing from fixed numbers. -/
theorem lex_map_complement {a a' m m' c : Nat → Nat} (h : ∀ v ∈ V, m v + a v = c v)
    (h' : ∀ v ∈ V, m' v + a' v = c v) :
    List.Lex (· < ·) (V.map m') (V.map m) ↔ List.Lex (· < ·) (V.map a) (V.map a') := by
  induction V with
  | nil => simp
  | cons v V ih =>
    have hv := h v List.mem_cons_self
    have hv' := h' v List.mem_cons_self
    rw [List.map_cons, List.map_cons, List.map_cons, List.map_cons, List.cons_lex_cons_iff,
      List.cons_lex_cons_iff, ih (fun w hw => h w (List.mem_cons_of_mem _ hw))
        fun w hw => h' w (List.mem_cons_of_mem _ hw)]
    refine or_congr ?_ (and_congr_left fun _ => ?_) <;> omega

/-! ### Misses -/

/-- The agreements that labels can have, from the greatest to the least. -/
def tiers (s : Scenario) : List Nat :=
  (SortedList.ofList (s.agenda.labels.map fun l =>
    [s.support l, voters s.profile - s.support l]).flatten).reverse

/-- The terms that count the labels that miss an agreement. -/
def missesOf (s : Scenario) (value : Nat) : List (Term String) :=
  s.agenda.labels.flatMap fun l => missTerms (voters s.profile) value l (s.support l)

/-- The tiers are descending. -/
theorem pairwise_tiers (s : Scenario) : s.tiers.Pairwise (· > ·) := by
  refine List.pairwise_reverse.2 ((SortedList.sorted_ofList _).imp ?_)
  exact fun hlt => Nat.compare_eq_lt.1 hlt

/-- Every agreement with an outcome is a tier. -/
theorem accords_subset_tiers (o : Outcome) : ∀ n ∈ s.accords o, n ∈ s.tiers := by
  intro n hn
  obtain ⟨l, hl, rfl⟩ := List.mem_map.1 hn
  refine List.mem_reverse.2 (SortedList.mem_ofList.2 (List.mem_flatten.2 ?_))
  refine ⟨_, List.mem_map.2 ⟨l, hl, rfl⟩, ?_⟩
  rw [accord]
  split <;> simp

/-- How often a number occurs is a sum of ones. -/
theorem count_eq_total (v : Nat) (ns : List Nat) :
    ns.count v = Count.total (ns.map fun n => if n = v then 1 else 0) := by
  induction ns with
  | nil => rfl
  | cons n ns ih =>
    rw [List.count_cons, ih, List.map_cons, Count.total, Nat.add_comm]
    simp

/-- A label that could have an agreement has it or misses it. -/
theorem value_missTerms {A : Valuation String} {l : Nat} (hl : l ∈ s.agenda.labels) (v : Nat) :
    Term.value A (missTerms (voters s.profile) v l (s.support l)) +
        (if s.accord (s.agenda.reading A) l = v then 1 else 0) =
      (if s.support l = v then 1 else 0) +
        if voters s.profile - s.support l = v then 1 else 0 := by
  rw [accord_reading hl, missTerms, Term.value_append]
  generalize voters s.profile - s.support l = against
  generalize s.support l = support
  by_cases hsupport : support = v <;> by_cases hagainst : against = v <;>
    cases hA : A (Label.variableName l) <;>
    simp [hsupport, hagainst, Term.value, Term.trueWeights, Count.total, eval_labelLiteral, hA]

/-- The number of labels that have an agreement or miss it does not depend on the outcome. -/
theorem value_missesOf (A : Valuation String) (v : Nat) :
    Term.value A (s.missesOf v) + (s.accords (s.agenda.reading A)).count v =
      Count.total (s.agenda.labels.map fun l => (if s.support l = v then 1 else 0) +
        if voters s.profile - s.support l = v then 1 else 0) := by
  rw [missesOf, Term.value_flatMap, count_eq_total, accords, List.map_map, ← Count.total_map_add]
  refine congrArg Count.total (List.map_congr_left fun l hl => ?_)
  exact value_missTerms hl v

theorem total_missesOf_le (v : Nat) : Term.total (s.missesOf v) ≤ 2 * s.agenda.size := by
  rw [missesOf, Term.total_flatMap, ← length_labels]
  generalize s.agenda.labels = ls
  induction ls with
  | nil => exact Nat.le_refl _
  | cons l ls ih =>
    have hl : Term.total (missTerms (voters s.profile) v l (s.support l)) ≤ 2 := by
      rw [missTerms]
      split <;> split <;> simp [Term.total, Count.total]
    rw [List.map_cons, Count.total, List.length_cons]
    omega

theorem misses_eq (h : voters s.profile < 9223372036854775808) :
    s.misses = .ok (s.tiers.map fun value => .sum (s.missesOf value)) := by
  have hsupports : (s.agenda.labels.mapM fun l => do return (l, ← s.supportCount l)) =
      .ok (s.agenda.labels.map fun l => (l, s.support l)) := by
    refine Result.mapM_eq_ok fun l _ => ?_
    rw [supportCount_eq h]
    rfl
  have hvalues : ((s.agenda.labels.map fun l => (l, s.support l)).mapM fun p => do
      return [p.2, ← Count.sub (voters s.profile) p.2]) =
        .ok ((s.agenda.labels.map fun l => (l, s.support l)).map fun p =>
          [p.2, voters s.profile - p.2]) := by
    refine Result.mapM_eq_ok fun p hp => ?_
    obtain ⟨l, -, rfl⟩ := List.mem_map.1 hp
    have hsub : Count.sub (voters s.profile) (s.support l) =
        .ok (voters s.profile - s.support l) := Count.sub_eq_ok (s.support_le l)
    rw [hsub]
    rfl
  rw [misses, voterCount_eq h, Result.ok_bind, hsupports, Result.ok_bind, hvalues, Result.ok_bind,
    List.map_map]
  simp only [List.flatMap_map]
  rfl

/-- The values of the tiers compare outcomes as their descending agreements do, the other way
round. -/
theorem lex_missesOf (A A' : Valuation String) :
    List.Lex (· < ·) (s.tiers.map fun v => Term.value A' (s.missesOf v))
        (s.tiers.map fun v => Term.value A (s.missesOf v)) ↔
      List.Lex (· < ·) (descending (s.accords (s.agenda.reading A)))
        (descending (s.accords (s.agenda.reading A'))) := by
  rw [descending_eq_runs s.pairwise_tiers (accords_subset_tiers _),
    descending_eq_runs s.pairwise_tiers (accords_subset_tiers _), lex_runs s.pairwise_tiers]
  exact lex_map_complement (fun v _ => value_missesOf A v) fun v _ => value_missesOf A' v

/-- Two values of a tier differ by no more than the number of labels. -/
theorem narrow_missesOf (hsize : s.agenda.size < 9223372036854775808) (v : Nat) :
    Term.Narrow (s.missesOf v) where
  total_lt := by
    have hlimit : Count.limit = 18446744073709551616 := by decide
    have hle := s.total_missesOf_le v
    omega
  value_lt A A' := by
    have hA := s.value_missesOf A v
    have hA' := s.value_missesOf A' v
    have hlength : (s.accords (s.agenda.reading A')).length = s.agenda.size := by
      rw [accords, List.length_map, length_labels]
    have hcount : (s.accords (s.agenda.reading A')).count v ≤ s.agenda.size :=
      hlength ▸ List.count_le_length
    omega

/-- The fewest misses, tier by tier, are the greatest descending agreements. -/
theorem leximax_expressed (hs : s.WellFormed) (hsize : s.agenda.size < 9223372036854775808)
    (hvoters : voters s.profile < 9223372036854775808) :
    ∃ p, s.problem .leximax = .ok p ∧ s.Expresses .leximax p := by
  obtain ⟨F, hF, hrepresents⟩ := s.admissibilityCnf_spec hs
  refine ⟨s.objectivesProblem F (s.tiers.map fun value => .sum (s.missesOf value)), ?_,
    hrepresents.expresses hs ?_
      (fun o' o => List.Lex (· < ·) (descending (s.accords o)) (descending (s.accords o')))
      (fun A A' => ?_) fun o => Iff.rfl⟩
  · rw [problem, admissibilityProblem_eq hF, Result.ok_bind]
    dsimp only
    rw [misses_eq hvoters]
    rfl
  · intro o ho ts hts
    obtain ⟨v, -, rfl⟩ := List.mem_map.1 ho
    rw [List.mem_singleton.1 hts]
    exact narrow_missesOf hsize v
  · have hvalue (A) : (Objective.value A ∘ fun value => .sum (s.missesOf value)) =
        fun v => Term.value A (s.missesOf v) :=
      funext fun v => Objective.value_sum A (s.missesOf v)
    rw [← lex_missesOf, List.map_map, List.map_map, hvalue, hvalue]

/-! ### The comparison of any two outcomes -/

/-- A valuation **casts** an outcome when it gives the variable of every label of the agenda the
value that the label has in the outcome. -/
def Casts (s : Scenario) (A : Valuation String) (o : Outcome) : Prop :=
  ∀ l ∈ s.agenda.labels, o.value? l = some (A (Label.variableName l))

theorem Casts.accords_eq (h : s.Casts A o) : s.accords o = s.accords (s.agenda.reading A) := by
  refine List.map_congr_left fun l hl => ?_
  rw [accord, accord, h l hl, value?_reading hl]

/-- Any outcome that gives a value to every label is cast. -/
theorem exists_casts (ho : ∀ l ∈ s.agenda.labels, o.value? l ≠ none) : ∃ A, s.Casts A o := by
  classical
  refine ⟨fun v => decide (∃ l, v = Label.variableName l ∧ o.value? l = some true), fun l hl => ?_⟩
  obtain ⟨b, hb⟩ := Option.ne_none_iff_exists'.1 (ho l hl)
  have hlabel : (∃ m, Label.variableName l = Label.variableName m ∧ o.value? m = some true) ↔
      b = true := by
    constructor
    · rintro ⟨m, hm, htrue⟩
      rw [← Label.variableName_injective hm, hb] at htrue
      exact Option.some.inj htrue
    · rintro rfl
      exact ⟨l, rfl, hb⟩
  simp [hlabel, hb]

/-- The objectives of the problem are the tiers. -/
theorem objectives_of_problem_leximax {p : OptimizationProblem} {objectives : List Objective}
    (hmisses : s.misses = .ok objectives) (hp : s.problem .leximax = .ok p) :
    p.objectives = objectives := by
  rw [problem] at hp
  cases hadmissible : s.admissibilityProblem with
  | error e =>
    rw [hadmissible] at hp
    cases hp
  | ok q =>
    rw [hadmissible, Result.ok_bind] at hp
    dsimp only at hp
    rw [hmisses] at hp
    cases hp
    rfl

/-- **The tiers represent the order of Leximax.** With fewer than 2⁶³ voters there are tiers and
descending agreements. Compared lexicographically by the values of the tiers, where the variables of
the labels have their values, one outcome is less than, equal to or greater than another exactly as
its descending agreements are greater than, equal to or less than those of the other. -/
theorem misses_exact (hvoters : voters s.profile < 9223372036854775808)
    (ho : ∀ l ∈ s.agenda.labels, o.value? l ≠ none)
    (ho' : ∀ l ∈ s.agenda.labels, o'.value? l ≠ none) :
    ∃ objectives agreements agreements', s.misses = .ok objectives ∧
      (∀ p, s.problem .leximax = .ok p → p.objectives = objectives) ∧
      s.descendingAgreements o = .ok agreements ∧ s.descendingAgreements o' = .ok agreements' ∧
      (∃ A, s.Casts A o) ∧ (∃ A', s.Casts A' o') ∧
      ∀ A A', s.Casts A o → s.Casts A' o' →
        cmpNumbers (objectives.map (Objective.value A)) (objectives.map (Objective.value A')) =
          (cmpNumbers agreements agreements').swap := by
  have hagreements (p : Outcome) :
      s.descendingAgreements p = .ok (descending (s.accords p)) := by
    rw [descendingAgreements, agreements_eq hvoters]
    rfl
  have hmisses := misses_eq hvoters
  refine ⟨_, _, _, hmisses, fun p => objectives_of_problem_leximax hmisses, hagreements o,
    hagreements o', exists_casts ho, exists_casts ho', fun A A' hA hA' => ?_⟩
  have hvalues (A : Valuation String) :
      (s.tiers.map fun v => Objective.sum (s.missesOf v)).map (Objective.value A) =
        s.tiers.map fun v => Term.value A (s.missesOf v) := by
    rw [List.map_map]
    exact List.map_congr_left fun v _ => Objective.value_sum A (s.missesOf v)
  rw [hvalues, hvalues, hA.accords_eq, hA'.accords_eq, ← Std.OrientedCmp.eq_swap]
  exact cmpNumbers_congr (lex_missesOf A' A) (lex_missesOf A A')

/-- Four voters: half of them accept the first issue, three accept the second one and one accepts
the third one. -/
def balanced : Scenario where
  declared := ["a", "b", "c"]
  agenda := ⟨[.atom "a", .atom "b", .atom "c"]⟩
  inputs := []
  outputs := []
  profile := [⟨2, [.atom "a", .atom "b"], [1, 2]⟩, ⟨1, [.atom "b"], [2]⟩, ⟨1, [.atom "c"], [3]⟩]

/-- The agreements are 3, 2 and 1 if all issues are accepted, and 3, 3 and 2 if only the second one
is. The first tier tells the outcomes apart. On the first issue neither value is missed more than
the other. -/
theorem misses_exact_balanced :
    let o := Outcome.ofPairs [(1, true), (2, true), (3, true)]
    let o' := Outcome.ofPairs [(1, false), (2, true), (3, false)]
    voters balanced.profile < 9223372036854775808 ∧
      (∀ l ∈ balanced.agenda.labels, o.value? l ≠ none) ∧
      (∀ l ∈ balanced.agenda.labels, o'.value? l ≠ none) ∧
      balanced.descendingAgreements o = .ok [3, 2, 1] ∧
      balanced.descendingAgreements o' = .ok [3, 3, 2] ∧
      ∃ objectives A A', balanced.misses = .ok objectives ∧ balanced.Casts A o ∧
        balanced.Casts A' o' ∧ cmpNumbers (objectives.map (Objective.value A))
          (objectives.map (Objective.value A')) = .gt := by
  intro o o'
  have hvoters : voters balanced.profile < 9223372036854775808 := by decide
  have ho : ∀ l ∈ balanced.agenda.labels, o.value? l ≠ none := by decide
  have ho' : ∀ l ∈ balanced.agenda.labels, o'.value? l ≠ none := by decide
  have hdescending : balanced.descendingAgreements o = .ok [3, 2, 1] := by decide +kernel
  have hdescending' : balanced.descendingAgreements o' = .ok [3, 3, 2] := by decide +kernel
  obtain ⟨objectives, as, as', hmisses, -, has, has', ⟨A, hA⟩, ⟨A', hA'⟩, hcmp⟩ :=
    misses_exact hvoters ho ho'
  cases has.symm.trans hdescending
  cases has'.symm.trans hdescending'
  exact ⟨hvoters, ho, ho', hdescending, hdescending', objectives, A, A', hmisses, hA, hA',
    hcmp A A' hA hA'⟩

end Scenario

end JudgmentAggregation
