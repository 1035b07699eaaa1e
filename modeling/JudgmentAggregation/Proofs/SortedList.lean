import JudgmentAggregation.Count
import JudgmentAggregation.SortedList

/-!
# Facts about finite sets and maps as sorted lists

Two sets with the same elements are equal (`eq_of_mem_iff`), and so are two maps with the same pairs
(`eq_of_pair_mem_iff`). What a map says of a key that it does not have, where it puts a key that is
above all its keys, and what becomes of a sum over a map when a value is put into it.
-/

namespace JudgmentAggregation

namespace SortedList

universe u v

variable {α : Type u} {β : Type v} [Ord α] [Std.TransOrd α] [Std.LawfulEqOrd α] {k : α} {b : β}
  {s : List (α × β)}

/-! ### Extensionality -/

omit [Ord α] [Std.TransOrd α] [Std.LawfulEqOrd α] in
/-- Two lists in a strict order are equal if they have the same members. -/
theorem eq_of_pairwise {r : α → α → Prop} {as bs : List α} (hasymm : ∀ a b, r a b → ¬ r b a)
    (has : as.Pairwise r) (hbs : bs.Pairwise r) (h : ∀ a, a ∈ as ↔ a ∈ bs) : as = bs := by
  have nodup {cs : List α} (hcs : cs.Pairwise r) : cs.Nodup := by
    refine hcs.imp ?_
    rintro a _ hab rfl
    exact hasymm a a hab hab
  refine List.Perm.eq_of_pairwise ?_ has hbs ?_
  · exact fun a b _ _ hab hba => (hasymm a b hab hba).elim
  · exact (List.perm_ext_iff_of_nodup (nodup has) (nodup hbs)).2 h

omit [Std.LawfulEqOrd α] in
theorem not_compare_lt {a b : α} (h : compare a b = .lt) : ¬ compare b a = .lt := by
  intro h'
  rw [Std.OrientedCmp.gt_of_lt h'] at h
  cases h

omit [Std.LawfulEqOrd α] in
/-- Sets with the same elements are equal. -/
theorem eq_of_mem_iff {as bs : List α} (has : Sorted as) (hbs : Sorted bs)
    (h : ∀ a, a ∈ as ↔ a ∈ bs) : as = bs :=
  eq_of_pairwise (fun _ _ => not_compare_lt) has hbs h

omit [Std.LawfulEqOrd α] in
/-- Maps with the same pairs are equal. -/
theorem eq_of_pair_mem_iff {t : List (α × β)} (hs : Sorted (s.map Prod.fst))
    (ht : Sorted (t.map Prod.fst)) (h : ∀ p, p ∈ s ↔ p ∈ t) : s = t :=
  eq_of_pairwise (fun p q => not_compare_lt (a := p.1) (b := q.1)) (List.pairwise_map.1 hs)
    (List.pairwise_map.1 ht) h

/-! ### Maps -/

/-- After an entry is put, the entries are this one and those with other keys. -/
theorem mem_put {p : α × β} (h : Sorted (s.map Prod.fst)) :
    p ∈ put k b s ↔ p = (k, b) ∨ p ∈ s ∧ p.1 ≠ k := by
  induction s with
  | nil => simp [put]
  | cons q s ih =>
    obtain ⟨k', b'⟩ := q
    obtain ⟨hk', hs⟩ := List.pairwise_cons.1 h
    -- The keys behind a key are different from it.
    have hne {q : α × β} (hq : q ∈ s) : q.1 ≠ k' := by
      rintro rfl
      have hlt := hk' q.1 (List.mem_map_of_mem hq)
      exact not_compare_lt hlt hlt
    rw [put]
    split
    · next hc =>
      have hkeep {q : α × β} (hq : q ∈ (k', b') :: s) : q.1 ≠ k := by
        rintro rfl
        rcases List.mem_cons.1 hq with rfl | hq
        · exact not_compare_lt hc hc
        · exact not_compare_lt hc (hk' _ (List.mem_map_of_mem hq))
      rw [List.mem_cons]
      exact or_congr_right ⟨fun hp => ⟨hp, hkeep hp⟩, fun hp => hp.1⟩
    · next hc =>
      obtain rfl := Std.LawfulEqOrd.eq_of_compare hc
      rw [List.mem_cons]
      refine or_congr_right ⟨fun hp => ⟨List.mem_cons_of_mem _ hp, hne hp⟩, ?_⟩
      rintro ⟨hp, hpk⟩
      exact (List.mem_cons.1 hp).resolve_left fun hp => hpk (by rw [hp])
    · next hc =>
      have hkk' : k' ≠ k := by
        rintro rfl
        rw [Std.ReflOrd.compare_self] at hc
        cases hc
      rw [List.mem_cons, List.mem_cons, ih hs]
      constructor
      · rintro (rfl | rfl | ⟨hp, hpk⟩)
        · exact .inr ⟨.inl rfl, hkk'⟩
        · exact .inl rfl
        · exact .inr ⟨.inr hp, hpk⟩
      · rintro (rfl | ⟨rfl | hp, hpk⟩)
        · exact .inr (.inl rfl)
        · exact .inl rfl
        · exact .inr (.inr ⟨hp, hpk⟩)

/-- Where no key occurs twice, a map has the pairs it is made of. -/
theorem mem_ofPairs {p : α × β} {ps : List (α × β)} (h : ps.Pairwise fun p q => p.1 ≠ q.1) :
    p ∈ ofPairs ps ↔ p ∈ ps := by
  suffices hfold : ∀ s : List (α × β), Sorted (s.map Prod.fst) →
      (p ∈ ps.foldl (fun s p => put p.1 p.2 s) s ↔ p ∈ ps ∨ p ∈ s ∧ ∀ q ∈ ps, q.1 ≠ p.1) by
    rw [ofPairs, hfold [] List.Pairwise.nil]
    simp
  induction ps with
  | nil => simp
  | cons q ps ih =>
    intro s hs
    obtain ⟨hq, hps⟩ := List.pairwise_cons.1 h
    rw [List.foldl_cons, ih hps _ (sorted_put hs), mem_put hs, List.forall_mem_cons, List.mem_cons]
    constructor
    · rintro (hp | ⟨rfl | ⟨hp, hpq⟩, hne⟩)
      · exact .inl (.inr hp)
      · exact .inl (.inl rfl)
      · exact .inr ⟨hp, hpq.symm, hne⟩
    · rintro ((rfl | hp) | ⟨hp, hqp, hne⟩)
      · exact .inr ⟨.inl rfl, fun q' hq' => (hq q' hq').symm⟩
      · exact .inl hp
      · exact .inr ⟨.inr ⟨hp, hqp.symm⟩, hne⟩

omit [Std.TransOrd α] [Std.LawfulEqOrd α] in
/-- Nothing is found under a key that compares equal to none of the keys. -/
theorem get?_eq_none (h : ∀ x ∈ s.map Prod.fst, compare k x ≠ .eq) : get? k s = none := by
  induction s with
  | nil => rfl
  | cons p s ih =>
    have hp : compare k p.1 ≠ .eq := h p.1 List.mem_cons_self
    rw [get?, if_neg (by simpa using hp)]
    exact ih fun x hx => h x (List.mem_cons_of_mem _ hx)

omit [Std.TransOrd α] [Std.LawfulEqOrd α] in
/-- A key above all the others is put at the end. -/
theorem put_eq_append (h : ∀ x ∈ s.map Prod.fst, compare k x = .gt) :
    put k b s = s ++ [(k, b)] := by
  induction s with
  | nil => rfl
  | cons p s ih =>
    have hp : compare k p.1 = .gt := h p.1 List.mem_cons_self
    rw [put, hp, List.cons_append, ← ih fun x hx => h x (List.mem_cons_of_mem _ hx)]

/-- A map gives a key the value of its pair. -/
theorem get?_eq_some_iff (h : Sorted (s.map Prod.fst)) : get? k s = some b ↔ (k, b) ∈ s := by
  induction s with
  | nil => simp [get?]
  | cons p s ih =>
    obtain ⟨k', b'⟩ := p
    obtain ⟨hk', hs⟩ := List.pairwise_cons.1 h
    rw [get?, List.mem_cons, Prod.mk.injEq]
    by_cases hk : k = k'
    · subst hk
      have hnot : (k, b) ∉ s := fun hmem => by
        have hlt := hk' k (List.mem_map_of_mem hmem)
        exact not_compare_lt hlt hlt
      simp [hnot, eq_comm]
    · have hne : (compare k k' == Ordering.eq) = false := by
        simpa using fun hc => hk (Std.LawfulEqOrd.eq_of_compare hc)
      rw [if_neg (by simp [hne]), ih hs]
      simp [hk]

/-- Putting a value into a map exchanges the summand of its key. -/
theorem total_put (g : α × β → Nat) (h : Sorted (s.map Prod.fst)) :
    Count.total ((put k b s).map g) + ((get? k s).map fun b' => g (k, b')).getD 0 =
      Count.total (s.map g) + g (k, b) := by
  induction s with
  | nil => simp [put, get?, Count.total]
  | cons p s ih =>
    obtain ⟨k', b'⟩ := p
    obtain ⟨hk', hs⟩ := List.pairwise_cons.1 h
    rw [put]
    split
    · next hc =>
      -- The key comes before all the others, so there was no value to exchange.
      have hbelow : ∀ x ∈ ((k', b') :: s).map Prod.fst, compare k x = .lt := by
        intro x hx
        rcases List.mem_cons.1 hx with rfl | hx
        · exact hc
        · exact Std.TransCmp.lt_trans hc (hk' x hx)
      have hnone : get? k ((k', b') :: s) = none := get?_eq_none fun x hx => by
        rw [hbelow x hx]
        exact Ordering.noConfusion
      simp [hnone, Count.total, Nat.add_comm]
    · next hc =>
      obtain rfl := Std.LawfulEqOrd.eq_of_compare hc
      simp only [List.map_cons, Count.total, get?, hc, beq_self_eq_true, if_true, Option.map_some,
        Option.getD_some]
      omega
    · next hc =>
      have hget : get? k ((k', b') :: s) = get? k s := by simp [get?, hc]
      have ih := ih hs
      rw [hget]
      simp only [List.map_cons, Count.total]
      omega

end SortedList

end JudgmentAggregation
