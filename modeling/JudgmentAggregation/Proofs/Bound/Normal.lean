import JudgmentAggregation.Bound.Normal
import JudgmentAggregation.Bound.Signed
import JudgmentAggregation.Proofs.Count
import JudgmentAggregation.Proofs.Sat.Word
import JudgmentAggregation.Proofs.SortedList
import Mathlib.Data.List.Basic

/-!
# Normal forms have the same value

The table of the weights of the variables has a value of its own: each variable contributes the
weight of its positive or of its negative literal. Entering a term adds its value to that of the
table (`Term.tally_spec`). Taking the lesser weight of each variable into the constant leaves a sum
with distinct variables and positive weights, whose weights and constant together are no more than
the weights at the start (`Term.normalize_spec`), so that no count overflows if these add up to
less than the limit. Whenever no count overflows the result is a normal form
(`Term.isNormal_normalize`), and none does exactly if the sums on each literal and those of the
entries fit (`Term.exists_normalize_iff`).

A normal form takes all the values from its constant on to its constant with all the weights. So its
weights add up to less than 2⁶³ wherever the values of the sum lie that close together
(`Term.Narrow`), however large the weights were that have cancelled each other.

A sum of words is the sum of the literals that they stand for, unless the word −2⁶³ has a positive
weight (`Term.ofWords_eq_ok`, `Term.ofWords_eq_fault`).

The terms of a normal form are in the order of their variables (`Term.ordered_normalize`), and such
terms are a normal form of themselves (`Term.Ordered.normalize_eq`).
-/

namespace JudgmentAggregation

namespace Term

/-- A constant and a sum in normal form have the value of some terms. -/
structure IsNormal (ts : List (Term Nat)) (n : Normal) : Prop where
  value_eq : ∀ A, value A ts = n.constant + value A n.terms
  weight_pos : ∀ t ∈ n.terms, 0 < t.weight
  nodup : (n.terms.map fun t => t.literal.var).Nodup
  var_mem : ∀ t ∈ n.terms, ∃ u ∈ ts, u.literal.var = t.literal.var
  total_le : n.constant + total n.terms ≤ total ts

variable {A : Valuation Nat} {t : Term Nat} {ts us : List (Term Nat)} {v p n : Nat}
  {table table' : List (Nat × Nat × Nat)}

theorem total_cons {α : Type} (t : Term α) (ts : List (Term α)) :
    total (t :: ts) = t.weight + total ts :=
  rfl

theorem total_append {α : Type} (ts us : List (Term α)) :
    total (ts ++ us) = total ts + total us := by
  rw [total, List.map_append, Count.total_append]
  rfl

theorem value_append {α : Type} (A : Valuation α) (ts us : List (Term α)) :
    value A (ts ++ us) = value A ts + value A us := by
  rw [value, trueWeights, List.filter_append, List.map_append, Count.total_append]
  rfl

/-- No value is greater than the sum of the weights. -/
theorem value_le_total {α : Type} (A : Valuation α) (ts : List (Term α)) :
    value A ts ≤ total ts := by
  induction ts with
  | nil => exact Nat.le_refl 0
  | cons t ts ih =>
    rw [value_cons, total_cons]
    split <;> omega

/-- The value depends on the variables of the terms only. -/
theorem value_congr {α : Type} {A B : Valuation α} {ts : List (Term α)}
    (h : ∀ t ∈ ts, B t.literal.var = A t.literal.var) : value B ts = value A ts := by
  induction ts with
  | nil => rfl
  | cons t ts ih =>
    have ht : t.literal.eval B = t.literal.eval A := by
      rw [Literal.eval, Literal.eval, h t List.mem_cons_self]
    rw [value_cons, value_cons, ht, ih fun u hu => h u (List.mem_cons_of_mem _ hu)]

/-- The true and the false literals have all the weights. -/
theorem value_negate {α : Type} (A : Valuation α) (ts : List (Term α)) :
    value A (ts.map negate) + value A ts = total ts := by
  induction ts with
  | nil => rfl
  | cons t ts ih =>
    rw [List.map_cons, value_cons, value_cons, total_cons, negate, Literal.eval_negate]
    cases t.literal.eval A <;> simp <;> omega

theorem total_negate {α : Type} (ts : List (Term α)) : total (ts.map negate) = total ts := by
  rw [total, List.map_map]
  rfl

/-- No term weighs more than all of them. -/
theorem weight_le_total {α : Type} {t : Term α} {ts : List (Term α)} (h : t ∈ ts) :
    t.weight ≤ total ts :=
  Count.le_total_of_mem (List.mem_map_of_mem h)

/-! ### The table -/

/-- What a variable contributes: the weight of its true literal. -/
def rowValue (A : Valuation Nat) (r : Nat × Nat × Nat) : Nat :=
  if A r.1 then r.2.1 else r.2.2

/-- Both weights of a variable. -/
def rowTotal (r : Nat × Nat × Nat) : Nat :=
  r.2.1 + r.2.2

/-- The weights of a variable with those of one more term. -/
def enter (t : Term Nat) (r : Nat × Nat) : Nat × Nat :=
  if t.literal.positive then (r.1 + t.weight, r.2) else (r.1, r.2 + t.weight)

/-- The weights that a table has for a variable. -/
def weightsOf (v : Nat) (table : List (Nat × Nat × Nat)) : Nat × Nat :=
  (SortedList.get? v table).getD (0, 0)

/-- Entering a term adds its value to that of the variable. -/
theorem rowValue_enter (A : Valuation Nat) (t : Term Nat) (r : Nat × Nat) :
    rowValue A (t.literal.var, enter t r) =
      rowValue A (t.literal.var, r) + if t.literal.eval A then t.weight else 0 := by
  obtain ⟨⟨v, b⟩, w⟩ := t
  cases b <;> cases h : A v <;> simp [rowValue, enter, Literal.eval, h]

/-- Entering a term adds its weight to those of the variable. -/
theorem rowTotal_enter (t : Term Nat) (r : Nat × Nat) :
    rowTotal (t.literal.var, enter t r) = rowTotal (t.literal.var, r) + t.weight := by
  obtain ⟨⟨v, b⟩, w⟩ := t
  cases b <;> simp [rowTotal, enter] <;> omega

/-- A function of the weights of a variable that is zero where there are none adds up to what it was
before, and the difference for the variable that gets a new value. -/
theorem total_put (g : Nat × Nat × Nat → Nat) (hg : g (v, 0, 0) = 0)
    (h : SortedList.Sorted (table.map Prod.fst)) (r : Nat × Nat) :
    Count.total ((SortedList.put v r table).map g) + g (v, weightsOf v table) =
      Count.total (table.map g) + g (v, r) := by
  rw [← SortedList.total_put g h, weightsOf]
  cases SortedList.get? v table with
  | none => simp [hg]
  | some r => rfl

/-- The weight of a literal among the weights of its variable. -/
def sideOf (l : Literal Nat) (r : Nat × Nat) : Nat :=
  if l.positive then r.1 else r.2

/-- The weight that a literal has in a table. -/
def entry (l : Literal Nat) (table : List (Nat × Nat × Nat)) : Nat :=
  sideOf l (weightsOf l.var table)

theorem entry_nil (l : Literal Nat) : entry l [] = 0 :=
  ite_self 0

/-- The sum of the weights that some terms have on a literal. -/
def weightOn (l : Literal Nat) (ts : List (Term Nat)) : Nat :=
  total (ts.filter fun t => t.literal = l)

theorem weightOn_cons (l : Literal Nat) (t : Term Nat) (ts : List (Term Nat)) :
    weightOn l (t :: ts) = (if t.literal = l then t.weight else 0) + weightOn l ts := by
  rw [weightOn, weightOn, List.filter_cons]
  by_cases h : t.literal = l <;> simp [h, total_cons]

/-- A weight that is entered adds to the entry of its literal. -/
theorem entry_put (l : Literal Nat) :
    entry l (SortedList.put t.literal.var (enter t (weightsOf t.literal.var table)) table) =
      entry l table + if t.literal = l then t.weight else 0 := by
  obtain ⟨⟨v, b⟩, w⟩ := t
  obtain ⟨u, c⟩ := l
  rw [entry, entry, weightsOf, SortedList.get?_put]
  by_cases hu : u = v
  · subst hu
    cases b <;> cases c <;> simp [enter, sideOf]
  · have hvu : ¬ v = u := fun heq => hu heq.symm
    simp [hu, hvu, weightsOf]

/-- A term is entered if the entry of its literal stays a count. -/
theorem tally_cons (h : entry t.literal table + t.weight < Count.limit) :
    tally table (t :: ts) =
      tally (SortedList.put t.literal.var (enter t (weightsOf t.literal.var table)) table) ts := by
  rw [entry] at h
  rcases hw : weightsOf t.literal.var table with ⟨p, n⟩
  rw [hw, sideOf] at h
  rw [weightsOf] at hw
  rw [tally]
  simp only [hw, enter]
  split
  · next hpositive =>
    rw [if_pos hpositive] at h
    rw [Count.add_eq_ok h]
  · next hnegative =>
    rw [if_neg hnegative] at h
    rw [Count.add_eq_ok h]

/-- A term is entered if the weight on its literal stays a count. -/
theorem tally_cons_eq_ok : tally table (t :: ts) = .ok table' ↔
    entry t.literal table + t.weight < Count.limit ∧
      tally (SortedList.put t.literal.var (enter t (weightsOf t.literal.var table)) table) ts =
        .ok table' := by
  by_cases h : entry t.literal table + t.weight < Count.limit
  · rw [tally_cons h]
    exact (and_iff_right h).symm
  · refine iff_of_false (fun htally => ?_) fun hfits => h hfits.1
    rw [tally] at htally
    rw [entry, weightsOf, sideOf] at h
    dsimp only at htally
    split at htally
    · next hpositive =>
      rw [if_pos hpositive] at h
      rw [Count.add, Count.check, if_neg h] at htally
      cases htally
    · next hnegative =>
      rw [if_neg hnegative] at h
      rw [Count.add, Count.check, if_neg h] at htally
      cases htally

/-- Terms can be entered into a table of counts exactly if the entry of every literal stays a
count. -/
theorem exists_tally_iff (htable : ∀ l, entry l table < Count.limit) :
    (∃ table', tally table ts = .ok table') ↔
      ∀ l, entry l table + weightOn l ts < Count.limit := by
  induction ts generalizing table with
  | nil => exact iff_of_true ⟨table, rfl⟩ htable
  | cons t ts ih =>
    simp only [tally_cons_eq_ok, exists_and_left, weightOn_cons]
    constructor
    · -- What the first term has put into the table counts for the later ones.
      rintro ⟨ht, hts⟩ l
      have hput := (ih fun m => ?_).1 hts l
      · rw [entry_put] at hput
        omega
      · rw [entry_put]
        split
        · next hm => exact hm ▸ ht
        · exact htable m
    · intro h
      have ht : entry t.literal table + t.weight < Count.limit := by
        have hliteral := h t.literal
        rw [if_pos rfl] at hliteral
        omega
      refine ⟨ht, (ih fun m => ?_).2 fun l => ?_⟩
      · have hm := h m
        rw [entry_put]
        omega
      · have hl := h l
        rw [entry_put]
        omega

/-- All the terms can be entered if the weight on each literal is a count. -/
theorem exists_tally_nil_iff :
    (∃ table, tally [] ts = .ok table) ↔ ∀ l, weightOn l ts < Count.limit := by
  have htable : ∀ l, entry l [] < Count.limit := fun l => (entry_nil l).symm ▸ (by decide)
  rw [exists_tally_iff htable]
  simp only [entry_nil, Nat.zero_add]

/-- Entering terms adds their values and their weights to those of the table. -/
theorem tally_spec (hs : SortedList.Sorted (table.map Prod.fst))
    (h : tally table ts = .ok table') :
    SortedList.Sorted (table'.map Prod.fst) ∧
      (∀ A, Count.total (table'.map (rowValue A)) =
        Count.total (table.map (rowValue A)) + value A ts) ∧
      Count.total (table'.map rowTotal) = Count.total (table.map rowTotal) + total ts ∧
      ∀ v ∈ table'.map Prod.fst, v ∈ table.map Prod.fst ∨ ∃ t ∈ ts, t.literal.var = v := by
  induction ts generalizing table with
  | nil =>
    cases h
    exact ⟨hs, fun _ => rfl, rfl, fun v => .inl⟩
  | cons t ts ih =>
    obtain ⟨hs', hvalue', htotal', hvar'⟩ := ih (SortedList.sorted_put hs) (tally_cons_eq_ok.1 h).2
    have hput (g : Nat × Nat × Nat → Nat) (hg : g (t.literal.var, 0, 0) = 0) :=
      total_put g hg hs (enter t (weightsOf t.literal.var table))
    refine ⟨hs', fun A => ?_, ?_, fun v hv => ?_⟩
    · have hvalue := hput (rowValue A) (by simp [rowValue])
      rw [rowValue_enter] at hvalue
      rw [hvalue', value_cons]
      omega
    · have htotal := hput rowTotal rfl
      rw [rowTotal_enter] at htotal
      rw [htotal', total_cons]
      omega
    · rcases hvar' v hv with hv | ⟨u, hu, hv⟩
      · rcases SortedList.mem_keys_put.1 hv with rfl | hv
        · exact .inr ⟨t, List.mem_cons_self, rfl⟩
        · exact .inl hv
      · exact .inr ⟨u, List.mem_cons_of_mem _ hu, hv⟩

/-- A table of some terms alone has their values and their weights. -/
theorem tally_nil_spec (h : tally [] ts = .ok table) :
    SortedList.Sorted (table.map Prod.fst) ∧
      (∀ A, Count.total (table.map (rowValue A)) = value A ts) ∧
      Count.total (table.map rowTotal) = total ts ∧
      ∀ v ∈ table.map Prod.fst, ∃ t ∈ ts, t.literal.var = v := by
  have hsorted : SortedList.Sorted (([] : List (Nat × Nat × Nat)).map Prod.fst) := .nil
  obtain ⟨hs, hvalue, htotal, hvar⟩ := tally_spec hsorted h
  refine ⟨hs, fun A => (hvalue A).trans (Nat.zero_add _), htotal.trans (Nat.zero_add _), ?_⟩
  intro v hv
  exact (hvar v hv).resolve_left List.not_mem_nil

/-! ### The differences -/

/-- The lesser weight and the value of what is left of a variable are its value. -/
theorem value_difference (A : Valuation Nat) (v p n : Nat) :
    min p n + value A (difference v p n) = rowValue A (v, p, n) := by
  rw [difference]
  split
  · cases h : A v <;> simp [rowValue, Literal.pos, Literal.eval, h, value, trueWeights,
      Count.total] <;> omega
  · split
    · cases h : A v <;> simp [rowValue, Literal.neg, Literal.eval, h, value, trueWeights,
        Count.total] <;> omega
    · have hpn : p = n := by omega
      simp [rowValue, hpn, value, trueWeights, Count.total]

theorem total_difference_le (v p n : Nat) :
    min p n + total (difference v p n) ≤ rowTotal (v, p, n) := by
  rw [difference, rowTotal]
  split
  · simp only [total, Count.total, List.map]
    omega
  · split
    · simp only [total, Count.total, List.map]
      omega
    · simp only [total, Count.total, List.map]
      omega

/-- The constant and the value of what is left are the value of the table. -/
theorem value_flatMap_difference (A : Valuation Nat) (table : List (Nat × Nat × Nat)) :
    Count.total (table.map fun r => min r.2.1 r.2.2) +
        value A (table.flatMap fun r => difference r.1 r.2.1 r.2.2) =
      Count.total (table.map (rowValue A)) := by
  induction table with
  | nil => rfl
  | cons r table ih =>
    obtain ⟨v, p, n⟩ := r
    have hr := value_difference A v p n
    simp only [List.map_cons, List.flatMap_cons, value_append, Count.total]
    omega

theorem total_flatMap_difference_le (table : List (Nat × Nat × Nat)) :
    Count.total (table.map fun r => min r.2.1 r.2.2) +
        total (table.flatMap fun r => difference r.1 r.2.1 r.2.2) ≤
      Count.total (table.map rowTotal) := by
  induction table with
  | nil => exact Nat.le_refl _
  | cons r table ih =>
    obtain ⟨v, p, n⟩ := r
    have hr := total_difference_le v p n
    simp only [List.map_cons, List.flatMap_cons, total_append, Count.total]
    omega

/-- A variable has at most one difference, which is positive. -/
theorem difference_spec (v p n : Nat) :
    ((difference v p n).map fun t => t.literal.var).Sublist [v] ∧
      ∀ t ∈ difference v p n, 0 < t.weight := by
  rw [difference]
  split
  · exact ⟨List.Sublist.refl _, by simpa using by omega⟩
  · split
    · exact ⟨List.Sublist.refl _, by simpa using by omega⟩
    · exact ⟨List.nil_sublist _, by simp⟩

/-- What is left has variables of the table, in its order. -/
theorem vars_flatMap_difference (table : List (Nat × Nat × Nat)) :
    ((table.flatMap fun r => difference r.1 r.2.1 r.2.2).map fun t => t.literal.var).Sublist
      (table.map Prod.fst) := by
  induction table with
  | nil => exact List.Sublist.refl _
  | cons r table ih =>
    rw [List.flatMap_cons, List.map_append]
    exact (difference_spec r.1 r.2.1 r.2.2).1.append ih

/-! ### Normal forms -/

/-- A sum has a normal form if it can be entered into a table and the constant is a count. -/
theorem normalize_eq_ok {n : Normal} : normalize ts = .ok n ↔
    ∃ table, tally [] ts = .ok table ∧
      Count.total (table.map fun r => min r.2.1 r.2.2) < Count.limit ∧
      n = ⟨Count.total (table.map fun r => min r.2.1 r.2.2),
        table.flatMap fun r => difference r.1 r.2.1 r.2.2⟩ := by
  rw [normalize]
  cases htally : tally [] ts with
  | error e => simp
  | ok table =>
    have hsum : Count.sum (table.map fun r => min r.2.1 r.2.2) =
        Count.check (Count.total (table.map fun r => min r.2.1 r.2.2)) :=
      Count.sum_eq_check_total _
    simp only [hsum, Count.check]
    by_cases hlt : Count.total (table.map fun r => min r.2.1 r.2.2) < Count.limit
    · simp [hlt, eq_comm]
    · simp [hlt]

/-- A normal form has the value of its terms. -/
theorem isNormal_normalize {n : Normal} (h : normalize ts = .ok n) : IsNormal ts n := by
  obtain ⟨table, htally, -, rfl⟩ := normalize_eq_ok.1 h
  obtain ⟨hs, hvalue, htotal, hvar⟩ := tally_nil_spec htally
  have hle := total_flatMap_difference_le table
  have hvars := vars_flatMap_difference table
  refine ⟨fun A => ?_, ?_, ?_, ?_, ?_⟩
  · rw [value_flatMap_difference, hvalue A]
  · intro t ht
    obtain ⟨r, -, ht⟩ := List.mem_flatMap.1 ht
    exact (difference_spec _ _ _).2 t ht
  · exact hvars.nodup (hs.imp fun hlt heq => by simp [heq] at hlt)
  · exact fun t ht => hvar _ (hvars.subset (List.mem_map_of_mem ht))
  · simp only
    omega

/-! ### The least and the greatest value -/

/-- Literals on distinct variables can all be true. -/
theorem exists_value_eq_total {us : List (Term Nat)}
    (h : (us.map fun t => t.literal.var).Nodup) : ∃ A, value A us = total us := by
  induction us with
  | nil => exact ⟨fun _ => false, rfl⟩
  | cons u us ih =>
    obtain ⟨hu, hus⟩ := List.nodup_cons.1 h
    obtain ⟨A, hA⟩ := ih hus
    refine ⟨fun v => if v = u.literal.var then u.literal.positive else A v, ?_⟩
    have hrest : value (fun v => if v = u.literal.var then u.literal.positive else A v) us =
        value A us := by
      refine value_congr fun t ht => if_neg fun heq => ?_
      exact hu (List.mem_map.2 ⟨t, ht, heq⟩)
    rw [value_cons, total_cons, hrest, hA, Literal.eval, if_pos rfl, beq_self_eq_true, if_pos rfl]

/-- Literals on distinct variables can all be false. -/
theorem exists_value_eq_zero {us : List (Term Nat)}
    (h : (us.map fun t => t.literal.var).Nodup) : ∃ A, value A us = 0 := by
  have hvars : (us.map negate).map (fun t => t.literal.var) = us.map fun t => t.literal.var := by
    rw [List.map_map]
    rfl
  -- Where all the opposite literals are true, none of the literals is.
  obtain ⟨A, hA⟩ := exists_value_eq_total (hvars ▸ h)
  have hnone := value_negate A us
  have htotal := total_negate us
  exact ⟨A, by omega⟩

/-- The constant of a normal form is a value of the sum. -/
theorem IsNormal.exists_value_eq_constant {n : Normal} (h : IsNormal ts n) :
    ∃ A, value A ts = n.constant := by
  obtain ⟨A, hA⟩ := exists_value_eq_zero h.nodup
  exact ⟨A, by rw [h.value_eq, hA, Nat.add_zero]⟩

/-- The constant of a normal form with all its weights is a value of the sum. -/
theorem IsNormal.exists_value_eq_total {n : Normal} (h : IsNormal ts n) :
    ∃ A, value A ts = n.constant + total n.terms := by
  obtain ⟨A, hA⟩ := Term.exists_value_eq_total h.nodup
  exact ⟨A, by rw [h.value_eq, hA]⟩

/-! ### Which sums have a normal form -/

/-- The weights of a sum **fit** when those on each literal add up to a count and some value of the
sum is a count. -/
structure Fits (ts : List (Term Nat)) : Prop where
  literals : ∀ l, weightOn l ts < Count.limit
  value : ∃ A, value A ts < Count.limit

theorem weightOn_le_total (l : Literal Nat) (ts : List (Term Nat)) : weightOn l ts ≤ total ts :=
  Count.total_le_of_sublist (List.filter_sublist.map weight)

/-- A sum fits whose weights add up to a count. -/
theorem fits_of_total_lt (h : total ts < Count.limit) : Fits ts where
  literals l := Nat.lt_of_le_of_lt (weightOn_le_total l ts) h
  value := ⟨fun _ => false, Nat.lt_of_le_of_lt (value_le_total _ ts) h⟩

/-- The sums that have a normal form are those whose weights fit. -/
theorem exists_normalize_iff : (∃ n, normalize ts = .ok n) ↔ Fits ts := by
  constructor
  · rintro ⟨n, hn⟩
    obtain ⟨table, hok, hlt, rfl⟩ := normalize_eq_ok.1 hn
    obtain ⟨A, hA⟩ := (isNormal_normalize hn).exists_value_eq_constant
    exact ⟨exists_tally_nil_iff.1 ⟨table, hok⟩, A, hA ▸ hlt⟩
  · rintro ⟨hliterals, A, hA⟩
    obtain ⟨table, hok⟩ := exists_tally_nil_iff.2 hliterals
    -- The constant is at most any value of the sum.
    have hconstant := value_flatMap_difference A table
    have hvalue := (tally_nil_spec hok).2.1 A
    exact ⟨_, normalize_eq_ok.2 ⟨table, hok, by omega, rfl⟩⟩

/-- A sum whose weights add up to a count has a normal form with the same value. -/
theorem normalize_spec (h : total ts < Count.limit) :
    ∃ n, normalize ts = .ok n ∧ IsNormal ts n := by
  obtain ⟨n, hn⟩ := exists_normalize_iff.2 (fits_of_total_lt h)
  exact ⟨n, hn, isNormal_normalize hn⟩

/-! ### Sums of close values -/

/-- The weights of a sum add up to a count, and its values are less than 2⁶³ apart. -/
structure Narrow {α : Type} (ts : List (Term α)) : Prop where
  total_lt : total ts < Count.limit
  value_lt : ∀ A A', value A ts < value A' ts + 9223372036854775808

/-- A sum is narrow whose weights add up to less than 2⁶³. -/
theorem narrow_of_lt {α : Type} {ts : List (Term α)} (h : total ts < 9223372036854775808) :
    Narrow ts where
  total_lt := by
    have hlimit : Count.limit = 18446744073709551616 := by decide
    omega
  value_lt A A' := by
    have hle := value_le_total A ts
    omega

/-- The weights of a normal form are the difference of two values of the sum. -/
theorem IsNormal.total_lt {n : Normal} (h : IsNormal ts n) (hts : Narrow ts) :
    total n.terms < 9223372036854775808 := by
  obtain ⟨A, hA⟩ := h.exists_value_eq_total
  obtain ⟨A', hA'⟩ := h.exists_value_eq_constant
  have hlt := hts.value_lt A A'
  omega

/-! ### Sums of words -/

/-- A word has a term unless it counts and is −2⁶³. The term is on the literal of the word. -/
theorem ofWord_eq (l : WordLiteral) (weight : Nat) : ofWord l weight =
    if 0 < weight ∧ l.word = Int64.minValue then .error .fault else .ok ⟨l.toLiteral, weight⟩ := by
  rw [ofWord]
  by_cases hweight : weight = 0
  · rw [if_pos hweight, if_neg fun h => Nat.ne_of_gt h.1 hweight]
    rfl
  rw [if_neg hweight]
  by_cases hmin : l.word = Int64.minValue
  · have hliteral : l.var.literal l.isPositive = .error .fault := by
      obtain ⟨w, hne⟩ := l
      subst hmin
      rfl
    rw [if_pos ⟨Nat.pos_of_ne_zero hweight, hmin⟩, hliteral]
    rfl
  · rw [if_neg fun h => hmin h.2, WordVariable.literal_var_iff.2 hmin]
    rfl

variable {ws : List (WordLiteral × Nat)}

/-- If no word of a sum counts and is −2⁶³, the sum is that of their literals. -/
theorem ofWords_eq_ok (h : ∀ w ∈ ws, ¬ (0 < w.2 ∧ w.1.word = Int64.minValue)) :
    ofWords ws = .ok (ws.map fun w => ⟨w.1.toLiteral, w.2⟩) :=
  Result.mapM_eq_ok fun w hw => by rw [ofWord_eq, if_neg (h w hw)]

/-- A word that counts and is −2⁶³ faults. -/
theorem ofWords_eq_fault {w : WordLiteral × Nat} (hw : w ∈ ws)
    (h : 0 < w.2 ∧ w.1.word = Int64.minValue) : ofWords ws = .error .fault := by
  induction ws with
  | nil => exact absurd hw List.not_mem_nil
  | cons w' ws ih =>
    rw [ofWords, List.mapM_cons, ofWord_eq]
    by_cases hw' : 0 < w'.2 ∧ w'.1.word = Int64.minValue
    · rw [if_pos hw']
      rfl
    · have hmem : w ∈ ws := (List.mem_cons.1 hw).resolve_left fun heq => hw' (heq ▸ h)
      have hrest : (ws.mapM fun w => ofWord w.1 w.2) = .error .fault := ih hmem
      rw [if_neg hw', Result.ok_bind, hrest]
      rfl

/-! ### Normal forms of normal forms -/

/-- Terms in the **order** of their variables, each variable once, with positive weights. -/
structure Ordered (ts : List (Term Nat)) : Prop where
  sorted : SortedList.Sorted (ts.map fun t => t.literal.var)
  weight_pos : ∀ t ∈ ts, 0 < t.weight

/-- Terms stay in order when their literals are exchanged for the opposite ones. -/
theorem Ordered.negate (h : Ordered ts) : Ordered (ts.map Term.negate) where
  sorted := by
    rw [List.map_map]
    exact h.sorted
  weight_pos := List.forall_mem_map.2 h.weight_pos

/-- A normal form is in order. -/
theorem ordered_normalize {n : Normal} (h : normalize ts = .ok n) : Ordered n.terms := by
  obtain ⟨table, htally, -, rfl⟩ := normalize_eq_ok.1 h
  have hs := (tally_nil_spec htally).1
  exact ⟨hs.sublist (vars_flatMap_difference table), (isNormal_normalize h).weight_pos⟩

/-- The row of a variable that occurs in one term only. -/
def row (t : Term Nat) : Nat × Nat × Nat :=
  (t.literal.var, enter t (0, 0))

/-- A term is what is left of its own row. -/
theorem difference_row (h : 0 < t.weight) :
    difference (row t).1 (row t).2.1 (row t).2.2 = [t] := by
  obtain ⟨⟨v, b⟩, w⟩ := t
  cases b <;> simp_all [row, enter, difference, Literal.pos, Literal.neg]

theorem min_row (t : Term Nat) : min (row t).2.1 (row t).2.2 = 0 := by
  obtain ⟨⟨v, b⟩, w⟩ := t
  cases b <;> simp [row, enter]

/-- Terms that come after a table in the order are added to it row by row. -/
theorem tally_eq_append
    (h : SortedList.Sorted (table.map Prod.fst ++ ts.map fun t => t.literal.var))
    (hlt : ∀ t ∈ ts, t.weight < Count.limit) : tally table ts = .ok (table ++ ts.map row) := by
  induction ts generalizing table with
  | nil => rw [List.map_nil, List.append_nil, tally]
  | cons t ts ih =>
    have hgreater : ∀ v ∈ table.map Prod.fst, compare t.literal.var v = .gt := fun v hv =>
      Std.OrientedCmp.gt_of_lt ((List.pairwise_append.1 h).2.2 v hv _ List.mem_cons_self)
    have hnone : weightsOf t.literal.var table = (0, 0) := by
      rw [weightsOf, SortedList.get?_eq_none fun v hv => by simp [hgreater v hv]]
      rfl
    have ht : entry t.literal table + t.weight < Count.limit := by
      have hzero : entry t.literal table = 0 := by
        rw [entry, hnone, sideOf, ite_self]
      rw [hzero, Nat.zero_add]
      exact hlt t List.mem_cons_self
    have hs : SortedList.Sorted ((table ++ [row t]).map Prod.fst ++
        ts.map fun t => t.literal.var) := by
      rw [List.map_append, List.append_assoc]
      exact h
    rw [tally_cons ht, hnone, SortedList.put_eq_append hgreater]
    rw [show (t.literal.var, enter t (0, 0)) = row t from rfl,
      ih hs fun u hu => hlt u (List.mem_cons_of_mem _ hu), List.append_assoc]
    rfl

/-- Terms in order are a normal form of themselves. -/
theorem Ordered.normalize_eq (h : Ordered ts) (hlt : total ts < Count.limit) :
    normalize ts = .ok ⟨0, ts⟩ := by
  have htally : tally [] ts = .ok (ts.map row) :=
    tally_eq_append h.sorted fun t ht => Nat.lt_of_le_of_lt (weight_le_total ht) hlt
  have hconstant : (ts.map row).map (fun r => min r.2.1 r.2.2) = ts.map fun _ => 0 := by
    rw [List.map_map]
    exact List.map_congr_left fun t _ => min_row t
  have hterms : (ts.map row).flatMap (fun r => difference r.1 r.2.1 r.2.2) = ts := by
    rw [List.flatMap_map]
    calc
      _ = ts.flatMap fun t => [t] :=
        List.flatMap_congr fun t ht => difference_row (h.weight_pos t ht)
      _ = ts := List.flatMap_singleton' ts
  have hzero : Count.total (ts.map fun _ => 0) = 0 := by
    rw [Count.total_map_const, Nat.zero_mul]
  rw [normalize, htally]
  dsimp only
  rw [hconstant, Count.sum_eq_ok (by rw [hzero]; decide), hzero, hterms]

end Term

end JudgmentAggregation
