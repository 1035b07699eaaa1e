import JudgmentAggregation.Proofs.ListFacts
import JudgmentAggregation.Proofs.Outcome.Order
import JudgmentAggregation.Proofs.Rule.Criterion
import JudgmentAggregation.Proofs.Rule.Lister

/-!
# Comparison selects the best outcomes

What is listed as best by a rule are the outcomes that the rule selects (`Scenario.best_spec`), and
the selection is the sorted list of them (`Scenario.select_spec`), whichever correct lister lists
what there is to choose. For three rules these have the greatest key. For Slater's rule the length
of the choices of judgments goes down until some outcome agrees with one of them, and for Young's
rule the inclusions are gone through with the best outcomes so far remembered
(`Scenario.Remembers`). Only where the choices cannot be counted, or the inclusions have no room, is
there a fault instead (`Scenario.best_eq_fault`).
-/

namespace JudgmentAggregation

namespace Scenario

variable {s : Scenario} {L : Lister} {o : Outcome} {os : List Outcome} {ls : List (Nat × Bool)}

/-! ### Greatest keys -/

section Greatest

variable {κ : Type} (cmp : κ → κ → Ordering) [Std.TransCmp cmp]

/-- The greater one of the first two keys stands for both. -/
theorem greatestKey_cons (k k₁ : κ) :
    ∃ k₂, (∀ ks, greatestKey cmp k (k₁ :: ks) = greatestKey cmp k₂ ks) ∧ (k₂ = k ∨ k₂ = k₁) ∧
      (cmp k k₂).isLE ∧ (cmp k₁ k₂).isLE := by
  refine ⟨if cmp k k₁ = .lt then k₁ else k, fun _ => rfl, ?_⟩
  by_cases hlt : cmp k k₁ = .lt
  · rw [if_pos hlt]
    exact ⟨.inr rfl, Ordering.isLE_of_eq_lt hlt, Std.ReflCmp.isLE_rfl⟩
  · have hge : (cmp k k₁).isGE := by
      cases hc : cmp k k₁ with
      | lt => exact absurd hc hlt
      | eq | gt => rfl
    rw [if_neg hlt]
    exact ⟨.inl rfl, Std.ReflCmp.isLE_rfl, Std.OrientedCmp.isLE_of_isGE hge⟩

/-- The greatest of some keys is one of them, and all of them are at most as great. -/
theorem greatestKey_spec (k : κ) (ks : List κ) :
    greatestKey cmp k ks ∈ k :: ks ∧ ∀ k' ∈ k :: ks, (cmp k' (greatestKey cmp k ks)).isLE := by
  induction ks generalizing k with
  | nil =>
    refine ⟨List.mem_cons_self, fun k' hk' => ?_⟩
    rw [List.mem_singleton.1 hk']
    exact Std.ReflCmp.isLE_rfl
  | cons k₁ ks ih =>
    obtain ⟨k₂, hstep, hk₂, hk, hk₁⟩ := greatestKey_cons cmp k k₁
    obtain ⟨hmem, hle⟩ := ih k₂
    have hfirst := hle k₂ List.mem_cons_self
    rw [hstep]
    simp only [List.mem_cons, forall_eq_or_imp] at hmem hle ⊢
    refine ⟨?_, Std.TransCmp.isLE_trans hk hfirst, Std.TransCmp.isLE_trans hk₁ hfirst, hle.2⟩
    rcases hmem with hbest | hbest
    · rw [hbest, ← or_assoc]
      exact .inl hk₂
    · exact .inr (.inr hbest)

/-- The outcomes with the greatest keys are those whose keys no other key exceeds. -/
theorem selectGreatest_spec (key : Outcome → Result κ) (value : Outcome → κ)
    (hkey : ∀ o ∈ os, key o = .ok (value o)) :
    ∃ selected, selectGreatest cmp key os = .ok selected ∧
      ∀ o, o ∈ selected ↔ o ∈ os ∧ ∀ o' ∈ os, (cmp (value o') (value o)).isLE := by
  cases os with
  | nil => exact ⟨[], rfl, by simp⟩
  | cons o₁ os =>
    obtain ⟨hmem, hle⟩ : greatestKey cmp (value o₁) (os.map value) ∈ (o₁ :: os).map value ∧
        ∀ k ∈ (o₁ :: os).map value, (cmp k (greatestKey cmp (value o₁) (os.map value))).isLE :=
      greatestKey_spec cmp (value o₁) (os.map value)
    refine ⟨(((o₁ :: os).zip ((o₁ :: os).map value)).filter fun p =>
      cmp p.2 (greatestKey cmp (value o₁) (os.map value)) = .eq).map Prod.fst, ?_, ?_⟩
    · rw [selectGreatest, Result.mapM_eq_ok hkey]
      rfl
    · generalize greatestKey cmp (value o₁) (os.map value) = best at hmem hle
      obtain ⟨o₂, ho₂, rfl⟩ := List.mem_map.1 hmem
      intro o
      rw [← List.map_prod_left_eq_zip, List.filter_map, List.map_map, List.mem_map]
      constructor
      · rintro ⟨o', ho', rfl⟩
        obtain ⟨hmem', heq⟩ := List.mem_filter.1 ho'
        have heq' : cmp (value o') (value o₂) = .eq := by simpa using heq
        refine ⟨hmem', fun o'' ho'' => ?_⟩
        exact Std.TransCmp.isLE_trans (hle _ (List.mem_map_of_mem ho''))
          (Ordering.isLE_of_eq_eq (Std.OrientedCmp.eq_symm heq'))
      · rintro ⟨ho, hmax⟩
        have heq : cmp (value o) (value o₂) = .eq :=
          Std.OrientedCmp.isLE_antisymm (hle _ (List.mem_map_of_mem ho)) (hmax o₂ ho₂)
        exact ⟨o, List.mem_filter.2 ⟨ho, by simpa using heq⟩, rfl⟩

end Greatest

/-- The lexicographic comparison of lists of numbers. -/
theorem cmpNumbers_eq (ms ns : List Nat) : cmpNumbers ms ns = List.compareLex compare ms ns := by
  induction ms generalizing ns with
  | nil => cases ns <;> rfl
  | cons m ms ih =>
    cases ns with
    | nil => rfl
    | cons n ns => rw [cmpNumbers, ih, List.compareLex_cons_cons]

instance : Std.TransCmp cmpNumbers := by
  have hcmp : cmpNumbers = List.compareLex compare := by
    funext ms ns
    exact cmpNumbers_eq ms ns
  rw [hcmp]
  infer_instance

/-- Lists of numbers compare lexicographically. -/
theorem cmpNumbers_eq_lt {ms ns : List Nat} :
    cmpNumbers ms ns = .lt ↔ List.Lex (· < ·) ms ns := by
  induction ms generalizing ns with
  | nil => cases ns <;> simp [cmpNumbers]
  | cons m ms ih =>
    cases ns with
    | nil => simp [cmpNumbers]
    | cons n ns =>
      rw [cmpNumbers, List.cons_lex_cons_iff, Ordering.then_eq_lt, Nat.compare_eq_lt,
        Nat.compare_eq_eq, ih]

/-- One list of numbers is at most another unless it is greater. -/
theorem isLE_cmpNumbers {ms ns : List Nat} :
    (cmpNumbers ms ns).isLE = true ↔ ¬ List.Lex (· < ·) ns ms := by
  rw [← cmpNumbers_eq_lt, @Std.OrientedCmp.eq_swap _ cmpNumbers]
  cases cmpNumbers ns ms <;> decide

/-- Lists of numbers are compared in the same way as others if each is less than the other where it
is so with these. -/
theorem cmpNumbers_congr {ms ns ms' ns' : List Nat}
    (hlt : List.Lex (· < ·) ms ns ↔ List.Lex (· < ·) ms' ns')
    (hgt : List.Lex (· < ·) ns ms ↔ List.Lex (· < ·) ns' ms') :
    cmpNumbers ms ns = cmpNumbers ms' ns' := by
  rw [← cmpNumbers_eq_lt, ← cmpNumbers_eq_lt] at hlt hgt
  rw [@Std.OrientedCmp.eq_swap _ cmpNumbers _ ns, @Std.OrientedCmp.eq_swap _ cmpNumbers _ ns',
    Ordering.swap_eq_lt, Ordering.swap_eq_lt] at hgt
  cases h : cmpNumbers ms ns <;> cases h' : cmpNumbers ms' ns' <;> simp_all

/-! ### The greatest number of judgments followed -/

/-- The outcomes kept are those that agree with the judgments. -/
theorem mem_agreeing : o ∈ agreeing ls os ↔ o ∈ os ∧ o.agreesWith ls = true :=
  List.mem_filter

/-- An outcome agrees with some choice of `n` judgments exactly if it follows at least `n`. -/
theorem exists_sublist_iff {n : Nat} :
    (∃ sub : List (Nat × Bool), sub.Sublist ls ∧ sub.length = n ∧ o.agreesWith sub = true) ↔
      n ≤ o.followed ls := by
  rw [Outcome.followed]
  constructor
  · rintro ⟨sub, hsub, rfl, hagrees⟩
    rw [← List.countP_eq_length.2 (List.all_eq_true.1 hagrees)]
    exact hsub.countP_le
  · intro hn
    rw [List.countP_eq_length_filter] at hn
    -- The first `n` of the judgments followed are such a choice.
    refine ⟨(ls.filter fun l => o.value? l.1 == some l.2).take n,
      (List.take_sublist _ _).trans List.filter_sublist, ?_, ?_⟩
    · rw [List.length_take, Nat.min_eq_left hn]
    · refine List.all_eq_true.2 fun l hl => ?_
      exact (List.mem_filter.1 (List.mem_of_mem_take hl)).2

theorem followed_le_length (o : Outcome) (ls : List (Nat × Bool)) : o.followed ls ≤ ls.length :=
  List.countP_le_length

/-- An outcome follows all the judgments exactly if it agrees with them. -/
theorem followed_eq_length_iff : o.followed ls = ls.length ↔ o.agreesWith ls = true := by
  rw [Outcome.followed, List.countP_eq_length, Outcome.agreesWith, List.all_eq_true]

/-- The outcomes that agree with some choice of `n` judgments. -/
theorem mem_flatMap_agreeing {n : Nat} {cs : List (List (Nat × Bool))}
    (hcs : Lister.AreChoices ls n cs) :
    o ∈ (cs.flatMap fun sub => agreeing sub os) ↔ o ∈ os ∧ n ≤ o.followed ls := by
  rw [← exists_sublist_iff, List.mem_flatMap]
  constructor
  · rintro ⟨sub, hmem, ho⟩
    obtain ⟨ho, hagrees⟩ := mem_agreeing.1 ho
    obtain ⟨hsub, hlength⟩ := (hcs sub).1 hmem
    exact ⟨ho, sub, hsub, hlength, hagrees⟩
  · rintro ⟨ho, sub, hsub, hlength, hagrees⟩
    exact ⟨sub, (hcs sub).2 ⟨hsub, hlength⟩, mem_agreeing.2 ⟨ho, hagrees⟩⟩

/-- The choices of so many judgments are listed if there are few judgments or if all of them are
chosen. -/
theorem exists_choices (hL : L.Correct) {n : Nat} (hn : n ≤ ls.length)
    (h : ls.length ≤ 20 ∨ ls.length ≤ n) :
    ∃ cs, choices L ls n = .ok cs ∧ Lister.AreChoices ls n cs := by
  rw [choices]
  split
  · next hzero =>
    subst hzero
    exact ⟨_, rfl, Lister.areChoices_zero⟩
  · next hpos =>
    split
    · next hall =>
      obtain rfl : n = ls.length := Nat.le_antisymm hn hall
      exact ⟨_, rfl, Lister.areChoices_length⟩
    · next hlt =>
      exact hL.choose_few ls n (Nat.pos_of_ne_zero hpos) (Nat.lt_of_not_le hlt)
        (h.resolve_right hlt)

/-- There is no room for a proper choice among more than 20 judgments. -/
theorem choices_eq_fault (hL : L.Correct) {n : Nat} (hlength : 20 < ls.length) (hn : 0 < n)
    (hlt : n < ls.length) : choices L ls n = .error .fault := by
  rw [choices, if_neg (Nat.ne_of_gt hn), if_neg (Nat.not_le_of_lt hlt)]
  exact hL.choose_many ls n hn hlt hlength

/-- The outcomes that follow the greatest number of judgments are found, if the choices of every
length that no outcome surpasses are listed. -/
theorem followMost_spec {choose : Nat → Result (List (List (Nat × Bool)))} {n : Nat}
    (hbound : ∀ o ∈ os, o.followed ls ≤ n)
    (hchoose : ∀ m, 0 < m → m ≤ n → (∀ o ∈ os, o.followed ls ≤ m) →
      ∃ cs, choose m = .ok cs ∧ Lister.AreChoices ls m cs) :
    ∃ selected, followMost choose os n = .ok selected ∧
      ∀ o, o ∈ selected ↔ o ∈ os ∧ ∀ o' ∈ os, o'.followed ls ≤ o.followed ls := by
  induction n with
  | zero =>
    refine ⟨os, rfl, fun o => ⟨fun ho => ⟨ho, fun o' ho' => ?_⟩, fun ho => ho.1⟩⟩
    exact Nat.le_trans (hbound o' ho') (Nat.zero_le _)
  | succ n ih =>
    obtain ⟨cs, hcs, hchoices⟩ := hchoose (n + 1) (Nat.succ_pos n) (Nat.le_refl _) hbound
    have hmem (o) := @mem_flatMap_agreeing o os ls (n + 1) cs hchoices
    rw [followMost, hcs, Result.ok_bind]
    split
    · next hnil =>
      -- No outcome follows as many judgments, so one judgment less is a bound as well.
      refine ih (fun o ho => ?_) fun m hm hmn => hchoose m hm (Nat.le_succ_of_le hmn)
      have hnot := (not_congr (hmem o)).1 (by rw [hnil]; exact List.not_mem_nil)
      exact Nat.le_of_not_lt fun hlt => hnot ⟨ho, hlt⟩
    · next hselected =>
      refine ⟨_, rfl, fun o => ?_⟩
      rw [hmem]
      constructor
      · rintro ⟨ho, hn⟩
        exact ⟨ho, fun o' ho' => Nat.le_trans (hbound o' ho') hn⟩
      · rintro ⟨ho, hmax⟩
        obtain ⟨o₁, ho₁⟩ := List.exists_mem_of_ne_nil _ fun hnil => hselected hnil
        obtain ⟨ho₁, hn⟩ := (hmem o₁).1 ho₁
        exact ⟨ho, Nat.le_trans hn (hmax o₁ ho₁)⟩

/-- The outcomes that follow the greatest number of judgments are found, if the choices can be
counted or need not be since some outcome follows all the judgments. -/
theorem followMost_choices (hL : L.Correct)
    (h : ls.length ≤ 20 ∨ ∃ o ∈ os, o.agreesWith ls = true) :
    ∃ selected, followMost (choices L ls) os ls.length = .ok selected ∧
      ∀ o, o ∈ selected ↔ o ∈ os ∧ ∀ o' ∈ os, o'.followed ls ≤ o.followed ls := by
  refine followMost_spec (fun o _ => followed_le_length o ls) fun m _ hle hbound => ?_
  refine exists_choices hL hle (h.imp_right ?_)
  -- If some outcome follows all the judgments, there are at most `m` of them.
  rintro ⟨o, ho, hagrees⟩
  rw [← followed_eq_length_iff.2 hagrees]
  exact hbound o ho

/-- If there are too many judgments for the choices to be counted and no outcome follows all of
them, there is a fault. -/
theorem followMost_eq_fault (hL : L.Correct) (hlength : 20 < ls.length)
    (h : ∀ o ∈ os, o.agreesWith ls ≠ true) :
    followMost (choices L ls) os ls.length = .error .fault := by
  -- The only choice of all the judgments is not counted, and no outcome agrees with it.
  obtain ⟨cs, hall, hchoices⟩ := exists_choices hL (Nat.le_refl ls.length) (.inr (Nat.le_refl _))
  have hnil : (cs.flatMap fun sub => agreeing sub os) = [] := by
    refine List.eq_nil_iff_forall_not_mem.2 fun o ho => ?_
    obtain ⟨ho, hle⟩ := (mem_flatMap_agreeing hchoices).1 ho
    exact h o ho (followed_eq_length_iff.1 (Nat.le_antisymm (followed_le_length o ls) hle))
  obtain ⟨n, hn⟩ : ∃ n, ls.length = n + 2 := ⟨ls.length - 2, by omega⟩
  have hfault : choices L ls (n + 1) = .error .fault :=
    choices_eq_fault hL hlength (Nat.succ_pos n) (by omega)
  rw [hn] at hall ⊢
  rw [followMost, hall, Result.ok_bind, hnil]
  dsimp only
  rw [followMost, hfault]
  rfl

/-! ### The greatest number of included voters -/

/-- What is listed are the inclusions. -/
theorem mem_inclusions (hL : L.Correct) {js : List JudgmentSet} {included : List Nat} :
    included ∈ inclusions L js ↔ Inclusion js included := by
  rcases js with _ | ⟨j, js⟩
  · simp [inclusions, Inclusion]
  · have hempty : [] ∉ (j :: js).map fun j => List.range (j.multiplicity + 1) := by simp
    rw [inclusions, if_neg (by simp), hL.mem_product _ _ (by simp) hempty,
      List.forall₂_map_left_iff]
    simp only [List.mem_range, Nat.lt_succ_iff]
    rfl

theorem total_included_le {js : List JudgmentSet} {included : List Nat}
    (h : Inclusion js included) :
    Count.total included ≤ voters js := by
  induction h with
  | nil => exact Nat.le_refl _
  | cons hn _ ih =>
    rw [voters] at ih ⊢
    rw [List.map_cons, Count.total, Count.total]
    omega

/-- No label has more support than there are voters included. -/
theorem includedSupport_le {included : List Nat} (h : Inclusion s.profile included) (l : Nat) :
    s.includedSupport included l ≤ Count.total included := by
  have hlength := h.length_eq
  have hsnd : (s.profile.zip included).map Prod.snd = included :=
    List.map_snd_zip (Nat.le_of_eq hlength.symm)
  rw [includedSupport]
  refine Nat.le_trans (Count.total_le_of_sublist (List.filter_sublist.map _)) ?_
  exact Nat.le_of_eq (congrArg Count.total hsnd)

theorem includedMajority_eq (h : voters s.profile < 9223372036854775808) {included : List Nat}
    (hincluded : Inclusion s.profile included) :
    s.includedMajority included (Count.total included) = .ok (s.majorityOf included) := by
  have htotal := total_included_le hincluded
  have hsides : (s.agenda.labels.mapM fun l => do
      let support ← Count.sum
        (((s.profile.zip included).filter fun p : JudgmentSet × Nat => p.1.accepts l).map Prod.snd)
      let _ ← Count.mul 2 support
      return (strictSide support (Count.total included)).map fun b => (l, b)) =
        .ok (s.agenda.labels.map fun l =>
          (strictSide (s.includedSupport included l) (Count.total included)).map
            fun b => (l, b)) := by
    refine Result.mapM_eq_ok fun l _ => ?_
    have hle : s.includedSupport included l ≤ voters s.profile :=
      Nat.le_trans (includedSupport_le hincluded l) htotal
    have hsum : Count.sum (((s.profile.zip included).filter fun p => p.1.accepts l).map Prod.snd) =
        .ok (s.includedSupport included l) :=
      Count.sum_eq_ok (Nat.lt_of_le_of_lt hle (voters_lt_limit h))
    have hmul : Count.mul 2 (s.includedSupport included l) =
        .ok (2 * s.includedSupport included l) := Count.check_eq_ok (two_mul_lt_limit h hle)
    rw [hsum, Result.ok_bind, hmul]
    rfl
  rw [includedMajority, hsides, Result.ok_bind, List.filterMap_map]
  rfl

/-- What is remembered of the inclusions gone through: the greatest number of voters whose majority
some outcome follows, and the outcomes that follow the majority of so many. -/
def Remembers (s : Scenario) (os : List Outcome) (D : List Nat → Prop) :
    Option (Nat × List Outcome) → Prop
  | none => ∀ included, D included → ∀ o ∈ os, o.agreesWith (s.majorityOf included) ≠ true
  | some (n, selected) => selected ≠ [] ∧
      (∀ o, o ∈ selected ↔ o ∈ os ∧ ∃ included, D included ∧ Count.total included = n ∧
        o.agreesWith (s.majorityOf included) = true) ∧
      ∀ included, D included → ∀ o ∈ os, o.agreesWith (s.majorityOf included) = true →
        Count.total included ≤ n

section Remember

variable {D : List Nat → Prop} {best : Option (Nat × List Outcome)} {selected : List Outcome}
  {c : List Nat}

theorem Remembers.congr {D' : List Nat → Prop} (hbest : s.Remembers os D best)
    (hD : ∀ c, D c ↔ D' c) : s.Remembers os D' best := by
  obtain rfl : D = D' := funext fun c => propext (hD c)
  exact hbest

/-- An inclusion need not be remembered if every outcome that follows its majority is beaten. -/
theorem Remembers.skip (hbest : s.Remembers os D best)
    (hc : ∀ o ∈ os, o.agreesWith (s.majorityOf c) = true →
      ∃ b, best = some b ∧ Count.total c < b.1) :
    s.Remembers os (fun c' => D c' ∨ c' = c) best := by
  cases best with
  | none =>
    rintro c' (hc' | rfl) o ho hagrees
    · exact hbest c' hc' o ho hagrees
    · obtain ⟨b, hb, -⟩ := hc o ho hagrees
      cases hb
  | some b =>
    obtain ⟨n, selected⟩ := b
    obtain ⟨hne, hmem, hmax⟩ := hbest
    refine ⟨hne, fun o => ?_, ?_⟩
    · rw [hmem]
      refine and_congr_right fun ho => exists_congr fun c' => ?_
      constructor
      · rintro ⟨hc', htotal, hagrees⟩
        exact ⟨.inl hc', htotal, hagrees⟩
      · rintro ⟨hc' | rfl, htotal, hagrees⟩
        · exact ⟨hc', htotal, hagrees⟩
        · obtain ⟨b, hb, hlt⟩ := hc o ho hagrees
          cases hb
          exact absurd htotal (Nat.ne_of_lt hlt)
    · rintro c' (hc' | rfl) o ho hagrees
      · exact hmax c' hc' o ho hagrees
      · obtain ⟨b, hb, hlt⟩ := hc o ho hagrees
        cases hb
        exact Nat.le_of_lt hlt

/-- An inclusion with as many voters adds the outcomes that follow its majority. -/
theorem Remembers.tie (hbest : s.Remembers os D (some (Count.total c, selected))) :
    s.Remembers os (fun c' => D c' ∨ c' = c)
      (some (Count.total c, selected ++ agreeing (s.majorityOf c) os)) := by
  obtain ⟨hne, hmem, hmax⟩ := hbest
  refine ⟨fun hnil => hne (List.append_eq_nil_iff.1 hnil).1, fun o => ?_, ?_⟩
  · rw [List.mem_append, hmem, mem_agreeing]
    constructor
    · rintro (⟨ho, c', hc', htotal, hagrees⟩ | ⟨ho, hagrees⟩)
      · exact ⟨ho, c', .inl hc', htotal, hagrees⟩
      · exact ⟨ho, c, .inr rfl, rfl, hagrees⟩
    · rintro ⟨ho, c', hc' | rfl, htotal, hagrees⟩
      · exact .inl ⟨ho, c', hc', htotal, hagrees⟩
      · exact .inr ⟨ho, hagrees⟩
  · rintro c' (hc' | rfl) o ho hagrees
    · exact hmax c' hc' o ho hagrees
    · exact Nat.le_refl _

/-- An inclusion with more voters replaces what was remembered. -/
theorem Remembers.replace (hne : agreeing (s.majorityOf c) os ≠ [])
    (hlt : ∀ c', D c' → ∀ o ∈ os, o.agreesWith (s.majorityOf c') = true →
      Count.total c' < Count.total c) :
    s.Remembers os (fun c' => D c' ∨ c' = c)
      (some (Count.total c, agreeing (s.majorityOf c) os)) := by
  refine ⟨hne, fun o => ?_, ?_⟩
  · rw [mem_agreeing]
    constructor
    · rintro ⟨ho, hagrees⟩
      exact ⟨ho, c, .inr rfl, rfl, hagrees⟩
    · rintro ⟨ho, c', hc' | rfl, htotal, hagrees⟩
      · exact absurd htotal (Nat.ne_of_lt (hlt c' hc' o ho hagrees))
      · exact ⟨ho, hagrees⟩
  · rintro c' (hc' | rfl) o ho hagrees
    · exact Nat.le_of_lt (hlt c' hc' o ho hagrees)
    · exact Nat.le_refl _

/-- Whatever is done with one inclusion, the best outcomes are remembered for it too when the others
are gone through. -/
theorem followIncluded_cons (h : voters s.profile < 9223372036854775808)
    (hc : Inclusion s.profile c) (hbest : s.Remembers os D best) :
    ∃ best', s.Remembers os (fun c' => D c' ∨ c' = c) best' ∧
      ∀ rest, s.followIncluded os (c :: rest) best = s.followIncluded os rest best' := by
  have htotal : Count.total c < Count.limit :=
    Nat.lt_of_le_of_lt (total_included_le hc) (voters_lt_limit h)
  simp only [followIncluded, Count.sum_eq_ok htotal, Result.ok_bind]
  -- The inclusion is passed over where it is beaten, or where no outcome follows its majority.
  by_cases hany : (best.any fun b => Count.total c < b.1) = true
  · obtain ⟨b, hb, hlt⟩ : ∃ b, best = some b ∧ Count.total c < b.1 := by
      cases best with
      | none => cases hany
      | some b => exact ⟨b, rfl, by simpa using hany⟩
    exact ⟨best, hbest.skip fun o _ _ => ⟨b, hb, hlt⟩, fun rest => if_pos hany⟩
  simp only [if_neg hany, includedMajority_eq h hc, Result.ok_bind]
  by_cases hempty : (agreeing (s.majorityOf c) os).isEmpty = true
  · refine ⟨best, hbest.skip fun o ho hagrees => ?_, fun rest => if_pos hempty⟩
    have hmem := mem_agreeing.2 ⟨ho, hagrees⟩
    rw [List.isEmpty_iff.1 hempty] at hmem
    exact absurd hmem List.not_mem_nil
  have hne : agreeing (s.majorityOf c) os ≠ [] := fun hnil => hempty (List.isEmpty_iff.2 hnil)
  simp only [if_neg hempty]
  cases best with
  | none =>
    exact ⟨_, Remembers.replace hne fun c' hc' o ho hagrees => absurd hagrees (hbest c' hc' o ho),
      fun _ => rfl⟩
  | some b =>
    obtain ⟨n, selected⟩ := b
    by_cases heq : n = Count.total c
    · subst heq
      exact ⟨_, hbest.tie, fun _ => if_pos rfl⟩
    · refine ⟨_, Remembers.replace hne fun c' hc' o ho hagrees => ?_, fun _ => if_neg heq⟩
      have hle := hbest.2.2 c' hc' o ho hagrees
      have hge : ¬ Count.total c < n := by simpa using hany
      omega

/-- Going through some inclusions remembers the best of them too. -/
theorem followIncluded_spec (h : voters s.profile < 9223372036854775808) {rest : List (List Nat)}
    (hrest : ∀ c ∈ rest, Inclusion s.profile c) (hbest : s.Remembers os D best) :
    ∃ best', s.followIncluded os rest best = .ok best' ∧
      s.Remembers os (fun c => D c ∨ c ∈ rest) best' := by
  induction rest generalizing D best with
  | nil => exact ⟨best, rfl, hbest.congr fun c => by simp⟩
  | cons c rest ih =>
    obtain ⟨hc, hrest⟩ := List.forall_mem_cons.1 hrest
    obtain ⟨best₁, hbest₁, hstep⟩ := followIncluded_cons h hc hbest
    obtain ⟨best', hrun, hbest'⟩ := ih hrest hbest₁
    refine ⟨best', (hstep rest).trans hrun, hbest'.congr fun c' => ?_⟩
    rw [List.mem_cons, or_assoc]

/-- The outcomes remembered of all the inclusions are those that Young's rule selects. -/
theorem Remembers.selects (hbest : s.Remembers os (Inclusion s.profile) best) :
    o ∈ (best.map Prod.snd).getD [] ↔ s.Selects (· ∈ os) o .young := by
  cases best with
  | none =>
    refine ⟨fun ho => absurd ho List.not_mem_nil, ?_⟩
    rintro ⟨ho, c, ⟨hc, hagrees⟩, -⟩
    exact absurd hagrees (hbest c hc o ho)
  | some b =>
    obtain ⟨n, selected⟩ := b
    obtain ⟨hne, hmem, hmax⟩ := hbest
    show o ∈ selected ↔ _
    rw [hmem]
    constructor
    · rintro ⟨ho, c, hc, rfl, hagrees⟩
      exact ⟨ho, c, ⟨hc, hagrees⟩, fun o' c' ho' hc' => hmax c' hc'.1 o' ho' hc'.2⟩
    · rintro ⟨ho, c, ⟨hc, hagrees⟩, hgreatest⟩
      -- Some outcome is remembered with the greatest number, so this one has it too.
      obtain ⟨o₁, ho₁⟩ := List.exists_mem_of_ne_nil _ hne
      obtain ⟨ho₁, c₁, hc₁, rfl, hagrees₁⟩ := (hmem o₁).1 ho₁
      have hle := hmax c hc o ho hagrees
      have hge := hgreatest o₁ c₁ ho₁ ⟨hc₁, hagrees₁⟩
      exact ⟨ho, c, hc, Nat.le_antisymm hle hge, hagrees⟩

end Remember

/-! ### The rules -/

/-- A rule **can be compared** on some outcomes when the choices of judgments can be counted or need
not be, and when there is room for the counts of included voters. -/
def Comparable (s : Scenario) (os : List Outcome) : Rule → Prop
  | .slater => s.majority.length ≤ 20 ∨ ∃ o ∈ os, o.agreesWith s.majority = true
  | .young => ∀ j ∈ s.profile, j.multiplicity < Count.capacity 8
  | _ => True

theorem totalAgreement_eq (h : s.Moderate) (o : Outcome) :
    s.totalAgreement o = .ok (Count.total (s.accords o)) := by
  have hle := s.total_accords_le o
  have hlt := h.judgments
  have hlimit : (9223372036854775808 : Nat) < Count.limit := by decide
  rw [totalAgreement, agreements_eq h.voters, Result.ok_bind]
  exact Count.sum_eq_ok (by omega)

theorem best_slater_eq (L : Lister) (h : voters s.profile < 9223372036854775808)
    (os : List Outcome) :
    s.best L .slater os = followMost (choices L s.majority) os s.majority.length := by
  rw [best, majorityLiterals_eq h]
  rfl

/-- The best outcomes by Slater's rule are those that it selects. -/
theorem best_slater_spec (hL : L.Correct) (h : voters s.profile < 9223372036854775808)
    (hr : s.Comparable os .slater) :
    ∃ selected, s.best L .slater os = .ok selected ∧
      ∀ o, o ∈ selected ↔ s.Selects (· ∈ os) o .slater := by
  obtain ⟨selected, hselected, hmem⟩ := followMost_choices hL hr
  exact ⟨selected, (best_slater_eq L h os).trans hselected, hmem⟩

/-- All the inclusions, in whatever order they are listed, are gone through, and what Young's rule
selects is remembered. -/
theorem followIncluded_selects (h : voters s.profile < 9223372036854775808) {cs : List (List Nat)}
    (hcs : ∀ c, c ∈ cs ↔ Inclusion s.profile c) :
    ∃ best, s.followIncluded os cs none = .ok best ∧
      ∀ o, o ∈ (best.map Prod.snd).getD [] ↔ s.Selects (· ∈ os) o .young := by
  have hnone : s.Remembers os (fun _ => False) none := fun _ hc => hc.elim
  obtain ⟨best, hrun, hbest⟩ := followIncluded_spec h (fun c hc => (hcs c).1 hc) hnone
  have hbest : s.Remembers os (Inclusion s.profile) best := hbest.congr fun c => by simp [hcs]
  exact ⟨best, hrun, fun o => hbest.selects⟩

/-- The best outcomes by Young's rule are those that it selects. -/
theorem best_young_spec (hL : L.Correct) (h : voters s.profile < 9223372036854775808)
    (hr : s.Comparable os .young) :
    ∃ selected, s.best L .young os = .ok selected ∧
      ∀ o, o ∈ selected ↔ s.Selects (· ∈ os) o .young := by
  have hroom : (s.profile.any fun j => Count.capacity 8 ≤ j.multiplicity) = false := by
    refine List.any_eq_false.2 fun j hj => ?_
    have := hr j hj
    simp only [decide_eq_true_eq]
    omega
  obtain ⟨best', hrun, hmem⟩ := followIncluded_selects h fun _ => mem_inclusions hL
  refine ⟨(best'.map Prod.snd).getD [], ?_, hmem⟩
  rw [best]
  simp only [hroom, hrun]
  rfl

/-- The best outcomes of a list are those that the rule selects among its outcomes. -/
theorem best_spec (hL : L.Correct) (h : s.Moderate) {r : Rule} (hr : s.Comparable os r) :
    ∃ selected, s.best L r os = .ok selected ∧ ∀ o, o ∈ selected ↔ s.Selects (· ∈ os) o r := by
  have hvoters := h.voters
  cases r with
  | kemeny =>
    obtain ⟨selected, hselected, hmem⟩ := selectGreatest_spec compare s.totalAgreement
      (fun o => Count.total (s.accords o)) fun o _ => totalAgreement_eq h o
    refine ⟨selected, hselected, fun o => (hmem o).trans ?_⟩
    exact and_congr_right fun _ => forall₂_congr fun o' _ => Nat.isLE_compare
  | leximax =>
    obtain ⟨selected, hselected, hmem⟩ := selectGreatest_spec cmpNumbers s.descendingAgreements
      (fun o => descending (s.accords o)) fun o _ => by
        rw [descendingAgreements, agreements_eq hvoters]
        rfl
    refine ⟨selected, hselected, fun o => (hmem o).trans ?_⟩
    exact and_congr_right fun _ => forall₂_congr fun o' _ => isLE_cmpNumbers
  | maxHamming =>
    obtain ⟨selected, hselected, hmem⟩ := selectGreatest_spec
      (fun m n : Nat => compare n m) (fun o => .ok (s.farthestDistance o)) s.farthestDistance
      fun o _ => rfl
    refine ⟨selected, hselected, fun o => (hmem o).trans ?_⟩
    exact and_congr_right fun _ => forall₂_congr fun o' _ => Nat.isLE_compare
  | slater => exact best_slater_spec hL hvoters hr
  | majority =>
    refine ⟨agreeing s.majority os, ?_, fun o => mem_agreeing⟩
    rw [best, majorityLiterals_eq hvoters]
    rfl
  | young => exact best_young_spec hL hvoters hr

/-- Where a rule cannot be compared there is a fault. -/
theorem best_eq_fault (hL : L.Correct) (h : voters s.profile < 9223372036854775808) {r : Rule}
    (hr : ¬ s.Comparable os r) : s.best L r os = .error .fault := by
  cases r with
  | slater =>
    obtain ⟨hlength, hnone⟩ := not_or.1 hr
    rw [best_slater_eq L h]
    refine followMost_eq_fault hL (by omega) fun o ho hagrees => ?_
    exact hnone ⟨o, ho, hagrees⟩
  | young =>
    have hany : (s.profile.any fun j => Count.capacity 8 ≤ j.multiplicity) = true := by
      by_contra hfew
      refine hr fun j hj => ?_
      have := List.any_eq_false.1 (eq_false_of_ne_true hfew) j hj
      simp only [decide_eq_true_eq] at this
      omega
    rw [best]
    simp only [hany]
    rfl
  | kemeny | leximax | maxHamming | majority => exact (hr trivial).elim

/-- The selection lists in order the outcomes that are best. -/
theorem select_of_best {r : Rule} {best : List Outcome} (hbest : s.best L r os = .ok best) :
    ∃ selected, s.select L r os = .ok selected ∧ SortedList.Sorted selected ∧
      ∀ o, o ∈ selected ↔ o ∈ best := by
  refine ⟨SortedList.ofList best, ?_, SortedList.sorted_ofList best, fun o => ?_⟩
  · rw [select, hbest]
    rfl
  · exact SortedList.mem_ofList

/-- The selection lists in order the outcomes that the rule selects. -/
theorem select_spec (hL : L.Correct) (h : s.Moderate) {r : Rule} (hr : s.Comparable os r) :
    ∃ selected, s.select L r os = .ok selected ∧ SortedList.Sorted selected ∧
      ∀ o, o ∈ selected ↔ s.Selects (· ∈ os) o r := by
  obtain ⟨best, hbest, hmem⟩ := best_spec hL h hr
  obtain ⟨selected, hselected, hsorted, hmem'⟩ := select_of_best hbest
  exact ⟨selected, hselected, hsorted, fun o => (hmem' o).trans (hmem o)⟩

/-- Selections of the same outcomes are the same list, whichever lister is used. -/
theorem select_eq_of_selects_iff {L' : Lister} {s' : Scenario} {os' : List Outcome} {r r' : Rule}
    (hL : L.Correct) (hL' : L'.Correct) (h : s.Moderate) (h' : s'.Moderate)
    (hr : s.Comparable os r) (hr' : s'.Comparable os' r')
    (hiff : ∀ o, s.Selects (· ∈ os) o r ↔ s'.Selects (· ∈ os') o r') :
    s.select L r os = s'.select L' r' os' := by
  obtain ⟨selected, hselected, hsorted, hmem⟩ := select_spec hL h hr
  obtain ⟨selected', hselected', hsorted', hmem'⟩ := select_spec hL' h' hr'
  rw [hselected, hselected', SortedList.eq_of_mem_iff hsorted hsorted' fun o => ?_]
  rw [hmem, hmem', hiff]

/-- Outcomes that cannot be compared are not selected from. -/
theorem select_eq_fault (hL : L.Correct) (h : voters s.profile < 9223372036854775808) {r : Rule}
    (hr : ¬ s.Comparable os r) : s.select L r os = .error .fault := by
  rw [select, best_eq_fault hL h hr]
  rfl

/-- A selection shows that there was room for the rule. -/
theorem comparable_of_select (hL : L.Correct) (h : voters s.profile < 9223372036854775808)
    {r : Rule} {selected : List Outcome} (hselect : s.select L r os = .ok selected) :
    s.Comparable os r := by
  by_contra hr
  rw [select_eq_fault hL h hr] at hselect
  cases hselect

end Scenario

end JudgmentAggregation
