import JudgmentAggregation.Bound.Signed
import JudgmentAggregation.Proofs.ListFacts

/-!
# What an index keeps

An index is **orderly** when different names have different numbers, which are all among those
given. An index **extends** another one when all the names keep their numbers and all the names it
has besides get numbers of their own. Whatever is numbered with an index (literals, clauses,
weighted sums, lists of them) leaves an orderly index that extends the one before and gives every
part its number; the predicate `VariableIndex.Numbers` states this of one function, and
`Numbers.all` carries it over to lists.

A valuation of the numbers **agrees** with one of the names when names and numbers have the same
values. Then literals, clauses and weighted sums have the same values on both sides.
-/

namespace JudgmentAggregation

namespace VariableIndex

open ListFacts

/-- Different names have different numbers, which are all among those given. -/
structure Orderly (i : VariableIndex) : Prop where
  given : ∀ p ∈ i.names, 0 < p.2 ∧ p.2 ≤ i.size
  distinct : i.names.Pairwise fun p q => p.1 ≠ q.1 ∧ p.2 ≠ q.2

/-- All names keep their numbers, and all new names have new numbers. -/
structure Extends (i i' : VariableIndex) : Prop where
  size_le : i.size ≤ i'.size
  kept : ∀ name v, i.get? name = some v → i'.get? name = some v
  fresh : ∀ name v, i'.get? name = some v → i.get? name = some v ∨ i.size < v

variable {i i' i'' : VariableIndex} {name : String} {v : Nat}

theorem Extends.refl (i : VariableIndex) : i.Extends i :=
  ⟨Nat.le_refl _, fun _ _ h => h, fun _ _ h => .inl h⟩

theorem Extends.trans (h : i.Extends i') (h' : i'.Extends i'') : i.Extends i'' where
  size_le := Nat.le_trans h.size_le h'.size_le
  kept name v hv := h'.kept name v (h.kept name v hv)
  fresh name v hv := by
    rcases h'.fresh name v hv with hv | hv
    · exact h.fresh name v hv
    · exact .inr (Nat.lt_of_le_of_lt h.size_le hv)

/-! ### Look-up -/

theorem orderly_empty : empty.Orderly :=
  ⟨by simp [empty], .nil⟩

/-- A name has the number that stands next to it. -/
theorem Orderly.get?_eq_some (h : i.Orderly) : i.get? name = some v ↔ (name, v) ∈ i.names :=
  lookup_eq_some_iff_mem (h.distinct.imp fun hpq => hpq.1)

/-- A number has the name that stands next to it. -/
theorem Orderly.nameOf?_eq_some (h : i.Orderly) :
    i.nameOf? v = some name ↔ (name, v) ∈ i.names := by
  rw [nameOf?, Option.map_eq_some_iff]
  constructor
  · rintro ⟨p, hp, rfl⟩
    have hv : p.2 = v := by simpa using List.find?_some hp
    exact hv ▸ List.mem_of_find?_eq_some hp
  · exact fun hp => ⟨(name, v), (find?_snd_eq_some_iff (h.distinct.imp fun hpq => hpq.2)).2 hp, rfl⟩

/-- A number has a name exactly if the name has the number. -/
theorem Orderly.nameOf?_eq_some_iff (h : i.Orderly) :
    i.nameOf? v = some name ↔ i.get? name = some v :=
  h.nameOf?_eq_some.trans h.get?_eq_some.symm

/-- No number is null. -/
theorem Orderly.pos (h : i.Orderly) (hv : i.get? name = some v) : 0 < v :=
  (h.given _ (h.get?_eq_some.1 hv)).1

/-- No number is greater than the size. -/
theorem Orderly.le_size (h : i.Orderly) (hv : i.get? name = some v) : v ≤ i.size :=
  (h.given _ (h.get?_eq_some.1 hv)).2

/-! ### New numbers -/

/-- An index stays orderly when numbers are reserved. -/
theorem Orderly.allocate (h : i.Orderly) (n : Nat) : (i.allocate n).Orderly :=
  ⟨fun p hp => ⟨(h.given p hp).1, Nat.le_trans (h.given p hp).2 (Nat.le_add_right _ _)⟩, h.distinct⟩

/-- Names keep their numbers when more are reserved. -/
theorem extends_allocate (i : VariableIndex) (n : Nat) : i.Extends (i.allocate n) :=
  ⟨Nat.le_add_right _ _, fun _ _ h => h, fun _ _ h => .inl h⟩

/-- A function **numbers** its arguments when it extends orderly indexes in an orderly way and its
results are in a relation to the arguments that goes on to hold under extension. -/
structure Numbers {α β : Type} (step : α → VariableIndex → β × VariableIndex)
    (R : VariableIndex → α → β → Prop) : Prop where
  orderly : ∀ a (i : VariableIndex), i.Orderly → (step a i).2.Orderly
  grows : ∀ a (i : VariableIndex), i.Orderly → i.Extends (step a i).2
  related : ∀ a (i : VariableIndex), i.Orderly → R (step a i).2 a (step a i).1
  mono : ∀ i i' a b, Extends i i' → R i a b → R i' a b

/-- A function that numbers the members of a list in turn numbers the list. -/
theorem Numbers.all {α β : Type} {step : α → VariableIndex → β × VariableIndex}
    {R : VariableIndex → α → β → Prop} (h : Numbers step R)
    {all : List α → VariableIndex → List β × VariableIndex} (hnil : ∀ i, all [] i = ([], i))
    (hcons : ∀ a as i, all (a :: as) i =
      ((step a i).1 :: (all as (step a i).2).1, (all as (step a i).2).2)) :
    Numbers all fun i => List.Forall₂ (R i) := by
  have mono : ∀ i i' as bs, Extends i i' → List.Forall₂ (R i) as bs → List.Forall₂ (R i') as bs :=
    fun i i' _ _ hi hR => hR.imp fun a b => h.mono i i' a b hi
  have spec : ∀ as (i : VariableIndex), i.Orderly →
      (all as i).2.Orderly ∧ i.Extends (all as i).2 ∧
        List.Forall₂ (R (all as i).2) as (all as i).1 := by
    intro as
    induction as with
    | nil => exact fun i hi => by rw [hnil]; exact ⟨hi, .refl i, .nil⟩
    | cons a as ih =>
      intro i hi
      obtain ⟨ho, hext, hR⟩ := ih _ (h.orderly a i hi)
      rw [hcons]
      exact ⟨ho, (h.grows a i hi).trans hext, .cons (h.mono _ _ a _ hext (h.related a i hi)) hR⟩
  exact ⟨fun as i hi => (spec as i hi).1, fun as i hi => (spec as i hi).2.1,
    fun as i hi => (spec as i hi).2.2, mono⟩

theorem numbers_insert : Numbers insert fun i name v => i.get? name = some v := by
  have spec : ∀ name (i : VariableIndex), i.Orderly → (i.insert name).2.Orderly ∧
      i.Extends (i.insert name).2 ∧ (i.insert name).2.get? name = some (i.insert name).1 := by
    intro name i hi
    rw [insert]
    cases hv : i.get? name with
    | some v => exact ⟨hi, .refl i, hv⟩
    | none =>
      refine ⟨⟨?_, List.pairwise_cons.2 ⟨?_, hi.distinct⟩⟩,
        ⟨Nat.le_succ _, fun n v hn => lookup_cons_of_lookup hv hn, fun n v hn => ?_⟩,
        List.lookup_cons_self⟩
      · intro p hp
        rcases List.mem_cons.1 hp with rfl | hp
        · exact ⟨Nat.succ_pos _, Nat.le_refl _⟩
        · exact ⟨(hi.given p hp).1, Nat.le_succ_of_le (hi.given p hp).2⟩
      · intro p hp
        have hle := (hi.given p hp).2
        refine ⟨?_, by simp only; omega⟩
        rintro rfl
        rw [hi.get?_eq_some.2 hp] at hv
        cases hv
      · obtain ⟨-, rfl⟩ | ⟨-, hn⟩ := lookup_cons_eq_some hn
        · exact .inr (Nat.lt_succ_self _)
        · exact .inl hn
  exact ⟨fun name i hi => (spec name i hi).1, fun name i hi => (spec name i hi).2.1,
    fun name i hi => (spec name i hi).2.2, fun i i' name v h => h.kept name v⟩

/-- Numbering a part of the argument, and making the result of the number. -/
theorem Numbers.map {α α' β β' : Type} {step : α → VariableIndex → β × VariableIndex}
    {R : VariableIndex → α → β → Prop} {R' : VariableIndex → α' → β' → Prop} (h : Numbers step R)
    (part : α' → α) (make : α' → β → β') (hR : ∀ i a b, R i (part a) b → R' i a (make a b))
    (mono : ∀ i i' a b, Extends i i' → R' i a b → R' i' a b) :
    Numbers (fun a i => (make a (step (part a) i).1, (step (part a) i).2)) R' :=
  ⟨fun a i => h.orderly (part a) i, fun a i => h.grows (part a) i,
    fun a i hi => hR _ a _ (h.related (part a) i hi), mono⟩

/-! ### Numbers of literals, clauses and sums -/

/-- A literal on a number **encodes** the literal on the name that has this number. -/
def Encodes (i : VariableIndex) (l : Literal String) (m : Literal Nat) : Prop :=
  i.get? l.var = some m.var ∧ m.positive = l.positive

/-- A term on a number **encodes** the term on the name that has this number. -/
def EncodesTerm (i : VariableIndex) (t : Term String) (u : Term Nat) : Prop :=
  i.Encodes t.literal u.literal ∧ u.weight = t.weight

theorem numbers_insertAll :
    Numbers insertAll fun i => List.Forall₂ fun name p => p.1 = name ∧ i.get? name = some p.2 :=
  Numbers.all (numbers_insert.map id (fun name v => (name, v)) (fun _ _ _ h => ⟨rfl, h⟩)
    fun _ _ _ _ hi h => ⟨h.1, hi.kept _ _ h.2⟩) (fun _ => rfl) fun _ _ _ => rfl

theorem numbers_literal : Numbers literal Encodes :=
  numbers_insert.map Literal.var (fun l v => (⟨v, l.positive⟩ : Literal Nat))
    (fun _ _ _ h => ⟨h, rfl⟩) fun _ _ _ _ hi h => ⟨hi.kept _ _ h.1, h.2⟩

theorem numbers_clause : Numbers clause fun i => List.Forall₂ i.Encodes :=
  numbers_literal.all (fun _ => rfl) fun _ _ _ => rfl

theorem numbers_cnf : Numbers cnf fun i => List.Forall₂ (List.Forall₂ i.Encodes) :=
  numbers_clause.all (fun _ => rfl) fun _ _ _ => rfl

theorem numbers_terms : Numbers terms fun i => List.Forall₂ i.EncodesTerm :=
  Numbers.all (numbers_literal.map Term.literal (fun t l => ⟨l, t.weight⟩)
    (fun _ _ _ h => ⟨h, rfl⟩) fun _ _ _ _ hi h => ⟨⟨hi.kept _ _ h.1.1, h.1.2⟩, h.2⟩)
    (fun _ => rfl) fun _ _ _ => rfl

/-! ### Values on both sides -/

/-- Names and their numbers have the same values. -/
def Agrees (i : VariableIndex) (N : Valuation Nat) (A : Valuation String) : Prop :=
  ∀ name v, i.get? name = some v → N v = A name

variable {N N' : Valuation Nat} {A : Valuation String}

section Values

variable {l : Literal String} {m : Literal Nat} {c : Clause String} {d : Clause Nat}
  {F : Cnf String} {G : Cnf Nat} {ts : List (Term String)} {us : List (Term Nat)}

theorem Encodes.eval_eq (h : i.Encodes l m) (hN : i.Agrees N A) : m.eval N = l.eval A := by
  rw [Literal.eval, Literal.eval, hN _ _ h.1, h.2]

theorem clause_eval_eq (h : List.Forall₂ i.Encodes c d) (hN : i.Agrees N A) :
    d.eval N = c.eval A := by
  induction h with
  | nil => rfl
  | cons hl _ ih =>
    simp only [Clause.eval] at ih
    simp [Clause.eval, hl.eval_eq hN, ih]

theorem cnf_eval_eq (h : List.Forall₂ (List.Forall₂ i.Encodes) F G) (hN : i.Agrees N A) :
    G.eval N = F.eval A := by
  induction h with
  | nil => rfl
  | cons hc _ ih =>
    simp only [Cnf.eval] at ih
    simp [Cnf.eval, clause_eval_eq hc hN, ih]

theorem value_eq (h : List.Forall₂ i.EncodesTerm ts us) (hN : i.Agrees N A) :
    Term.value N us = Term.value A ts := by
  induction h with
  | nil => rfl
  | cons ht _ ih => rw [Term.value_cons, Term.value_cons, ht.1.eval_eq hN, ht.2, ih]

theorem total_eq (h : List.Forall₂ i.EncodesTerm ts us) : Term.total us = Term.total ts := by
  induction h with
  | nil => rfl
  | cons ht _ ih =>
    simp only [Term.total] at ih
    simp [Term.total, Count.total, ht.2, ih]

end Values

/-- The numbers of the terms are among those given. -/
theorem Orderly.var_given (h : i.Orderly) {ts : List (Term String)} {us : List (Term Nat)}
    (hts : List.Forall₂ i.EncodesTerm ts us) :
    ∀ u ∈ us, 0 < u.literal.var ∧ u.literal.var ≤ i.size := by
  intro u hu
  obtain ⟨t, -, ht⟩ := exists_of_forall₂ hts hu
  exact ⟨h.pos ht.1.1, h.le_size ht.1.1⟩

/-- Valuations that agree on the later names agree on the earlier ones. -/
theorem Extends.agrees (h : i.Extends i') (hN : i'.Agrees N A) : i.Agrees N A :=
  fun name v hv => hN name v (h.kept name v hv)

theorem Agrees.of_eq (h : i.Orderly) (hN : i.Agrees N A) (hN' : ∀ v ≤ i.size, N' v = N v) :
    i.Agrees N' A :=
  fun name v hv => (hN' v (h.le_size hv)).trans (hN name v hv)

/-- The valuation of the numbers that gives each the value of its name. -/
def numbered (i : VariableIndex) (A : Valuation String) : Valuation Nat :=
  fun v => ((i.nameOf? v).map A).getD false

/-- The valuation of the names that gives each the value of its number. -/
def named (i : VariableIndex) (N : Valuation Nat) : Valuation String :=
  fun name => ((i.get? name).map N).getD false

/-- For a valuation of the names there is one of the numbers. -/
theorem Orderly.agrees_numbered (h : i.Orderly) (A : Valuation String) :
    i.Agrees (i.numbered A) A := by
  intro name v hv
  rw [numbered, h.nameOf?_eq_some_iff.2 hv]
  rfl

/-- For a valuation of the numbers there is one of the names. -/
theorem agrees_named (i : VariableIndex) (N : Valuation Nat) : i.Agrees N (i.named N) := by
  intro name v hv
  rw [named, hv]
  rfl

/-- A valuation can be changed on the new numbers so as to agree on the new names, too. -/
theorem Extends.exists_agrees (h : i.Extends i') (ho : i'.Orderly) (hN : i.Agrees N A) :
    ∃ N', (∀ v ≤ i.size, N' v = N v) ∧ i'.Agrees N' A := by
  refine ⟨fun v => if v ≤ i.size then N v else i'.numbered A v, fun v hv => if_pos hv, ?_⟩
  intro name v hv
  -- A name whose number is old has had it before; the others take their values from `A`.
  by_cases hle : v ≤ i.size
  · have hold : i.get? name = some v := (h.fresh name v hv).resolve_right (Nat.not_lt.2 hle)
    exact (if_pos hle).trans (hN name v hold)
  · exact (if_neg hle).trans (ho.agrees_numbered A name v hv)

end VariableIndex

end JudgmentAggregation
