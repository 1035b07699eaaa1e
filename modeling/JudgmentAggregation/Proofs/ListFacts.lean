import Mathlib.Data.List.Forall2

/-!
# Facts about lists

Look-up in lists of pairs, and lists whose members are related one by one.
-/

namespace JudgmentAggregation

namespace ListFacts

universe u v

variable {α : Type u} {β : Type v}

/-! ### Look-up -/

section Lookup

variable [BEq α] [LawfulBEq α] {k k' : α} {b b' : β} {ps : List (α × β)}

theorem lookup_cons_of_ne (h : k ≠ k') : List.lookup k ((k', b) :: ps) = ps.lookup k := by
  rw [List.lookup_cons, beq_false_of_ne h]

/-- What is looked up is in the list. -/
theorem mem_of_lookup (h : ps.lookup k = some b) : (k, b) ∈ ps := by
  obtain ⟨l₁, l₂, rfl, -⟩ := List.lookup_eq_some_iff.1 h
  simp

/-- A look-up behind a new pair finds the new value or what it found before. -/
theorem lookup_cons_eq_some (h : List.lookup k ((k', b') :: ps) = some b) :
    k = k' ∧ b = b' ∨ k ≠ k' ∧ ps.lookup k = some b := by
  by_cases hk : k = k'
  · subst hk
    rw [List.lookup_cons_self] at h
    exact .inl ⟨rfl, (Option.some_inj.1 h).symm⟩
  · exact .inr ⟨hk, lookup_cons_of_ne hk ▸ h⟩

/-- A key that is found is still found behind a pair with a key that was not. -/
theorem lookup_cons_of_lookup (hk : ps.lookup k' = none) (h : ps.lookup k = some b) :
    List.lookup k ((k', b') :: ps) = some b := by
  have hne : k ≠ k' := by
    rintro rfl
    rw [hk] at h
    cases h
  rw [lookup_cons_of_ne hne, h]

/-- Where no key occurs twice, what is found is what is there. -/
theorem lookup_eq_some_iff_mem (h : ps.Pairwise fun p q => p.1 ≠ q.1) :
    ps.lookup k = some b ↔ (k, b) ∈ ps := by
  refine ⟨mem_of_lookup, fun hp => ?_⟩
  induction ps with
  | nil => cases hp
  | cons p ps ih =>
    obtain ⟨hne, hps⟩ := List.pairwise_cons.1 h
    rcases List.mem_cons.1 hp with rfl | hp
    · exact List.lookup_cons_self
    · rw [lookup_cons_of_ne (hne _ hp).symm, ih hps hp]

end Lookup

/-- Where no value occurs twice, a search for it finds the pair that has it. -/
theorem find?_snd_eq_some_iff [BEq β] [LawfulBEq β] {ps : List (α × β)} {k : α} {b : β}
    (h : ps.Pairwise fun p q => p.2 ≠ q.2) :
    ps.find? (fun p => p.2 == b) = some (k, b) ↔ (k, b) ∈ ps := by
  refine ⟨List.mem_of_find?_eq_some, fun hp => ?_⟩
  induction ps with
  | nil => cases hp
  | cons p ps ih =>
    obtain ⟨hne, hps⟩ := List.pairwise_cons.1 h
    rcases List.mem_cons.1 hp with rfl | hp
    · exact List.find?_cons_of_pos (beq_self_eq_true b)
    · rw [List.find?_cons_of_neg (by simpa using hne _ hp), ih hps hp]

/-! ### Related lists -/

/-- Of two lists related member by member, each member of the second has one of the first. -/
theorem exists_of_forall₂ {R : α → β → Prop} {as : List α} {bs : List β} {b : β}
    (h : List.Forall₂ R as bs) (hb : b ∈ bs) : ∃ a ∈ as, R a b := by
  induction h with
  | nil => cases hb
  | @cons a b' as bs hR _ ih =>
    rcases List.mem_cons.1 hb with rfl | hb
    · exact ⟨a, List.mem_cons_self, hR⟩
    · obtain ⟨a', ha, hR⟩ := ih hb
      exact ⟨a', List.mem_cons_of_mem _ ha, hR⟩

/-! ### Initial runs -/

/-- Two lists that go on with nothing that has a property are cut the same way behind their initial
runs of members that have it. -/
theorem append_inj_of_head? {q : α → Bool} {as as' bs bs' : List α} (has : ∀ a ∈ as, q a = true)
    (has' : ∀ a ∈ as', q a = true) (hbs : ∀ b ∈ bs.head?, q b = false)
    (hbs' : ∀ b ∈ bs'.head?, q b = false) (h : as ++ bs = as' ++ bs') : as = as' ∧ bs = bs' := by
  have run {as bs : List α} (has : ∀ a ∈ as, q a = true) (hbs : ∀ b ∈ bs.head?, q b = false) :
      (as ++ bs).takeWhile q = as := by
    rw [List.takeWhile_append_of_pos has]
    cases bs with
    | nil => simp
    | cons b bs => rw [List.takeWhile_cons_of_neg (by simp [hbs b rfl]), List.append_nil]
  have hruns := congrArg (List.takeWhile q) h
  rw [run has hbs, run has' hbs'] at hruns
  subst hruns
  exact ⟨rfl, List.append_cancel_left h⟩

theorem prefix_append_cons (as bs : List α) (a : α) : as ++ [a] <+: as ++ a :: bs := by
  rw [List.append_cons as a bs]
  exact List.prefix_append ..

/-! ### Repetitions -/

section Repetitions

variable [BEq α] [LawfulBEq α]

/-- What the loop of `List.eraseReps` adds to its accumulator has the members of the rest, in its
order. -/
theorem eraseReps_loop_spec (a : α) (as acc : List α) :
    ∃ bs, List.eraseRepsBy.loop (· == ·) a as acc = acc.reverse ++ bs ∧
      bs.Sublist (a :: as) ∧ ∀ x, x ∈ bs ↔ x ∈ a :: as := by
  induction as generalizing a acc with
  | nil => exact ⟨[a], by simp [List.eraseRepsBy.loop], .refl _, fun _ => Iff.rfl⟩
  | cons a' as ih =>
    rw [List.eraseRepsBy.loop]
    cases h : a == a' with
    | true =>
      obtain rfl := eq_of_beq h
      obtain ⟨bs, hbs, hsub, hmem⟩ := ih a acc
      exact ⟨bs, hbs, hsub.trans (List.sublist_cons_self a _), fun x => by simp [hmem]⟩
    | false =>
      obtain ⟨bs, hbs, hsub, hmem⟩ := ih a' (a :: acc)
      exact ⟨a :: bs, by simp [hbs], hsub.cons_cons a, fun x => by simp [hmem]⟩

/-- Without the immediate repetitions, a list is a part of itself. -/
theorem eraseReps_sublist (as : List α) : as.eraseReps.Sublist as := by
  cases as with
  | nil => exact .refl _
  | cons a as =>
    obtain ⟨bs, hbs, hsub, -⟩ := eraseReps_loop_spec a as []
    rw [List.eraseReps, List.eraseRepsBy, hbs]
    exact hsub

/-- Without the immediate repetitions, a list has the same members. -/
theorem mem_eraseReps {as : List α} {x : α} : x ∈ as.eraseReps ↔ x ∈ as := by
  cases as with
  | nil => exact Iff.rfl
  | cons a as =>
    obtain ⟨bs, hbs, -, hmem⟩ := eraseReps_loop_spec a as []
    rw [List.eraseReps, List.eraseRepsBy, hbs]
    exact hmem x

end Repetitions

/-! ### First exceptions -/

/-- A property holds of all the members of a list, or there is a first one of which it does not. -/
theorem forall_or_exists_first (P : α → Prop) (as : List α) :
    (∀ a ∈ as, P a) ∨ ∃ bs a cs, as = bs ++ a :: cs ∧ (∀ b ∈ bs, P b) ∧ ¬ P a := by
  induction as with
  | nil => exact .inl (List.forall_mem_nil P)
  | cons a as ih =>
    by_cases ha : P a
    · rcases ih with has | ⟨bs, b, cs, rfl, hbs, hb⟩
      · exact .inl (List.forall_mem_cons.2 ⟨ha, has⟩)
      · exact .inr ⟨a :: bs, b, cs, rfl, List.forall_mem_cons.2 ⟨ha, hbs⟩, hb⟩
    · exact .inr ⟨[], a, as, rfl, List.forall_mem_nil P, ha⟩

end ListFacts

end JudgmentAggregation
