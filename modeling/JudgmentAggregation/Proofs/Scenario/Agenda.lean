import JudgmentAggregation.Outcome.Basic
import JudgmentAggregation.Proofs.Formula.NormalForm
import JudgmentAggregation.Proofs.Scenario.Label
import JudgmentAggregation.Proofs.SortedList

/-!
# Agendas and the outcomes they have

A valuation of the atoms gives each label of an agenda the value of its formula: `Agenda.outcome`.
In clauses the labels are variables of their own. A valuation is **faithful** to an agenda when
these variables have the values of the formulas; any valuation of the atoms has one that is faithful
and does not differ from it on atoms (`Agenda.complete`). The outcome read off the variables of the
labels (`Agenda.reading`) is the same thing under faithful valuations, and it is what a model on
these variables is decoded to (`Agenda.ofModel_eq_reading`).
-/

namespace JudgmentAggregation

namespace Agenda

open Label

variable {a : Agenda} {A A' : Valuation String} {f : Formula} {l : Nat} {o : Outcome}

/-! ### Labels -/

/-- The labels are the numbers from 1 to the size of the agenda. -/
theorem mem_labels : l ∈ a.labels ↔ 1 ≤ l ∧ l ≤ a.size := by
  rw [labels, List.mem_range'_1]
  omega

theorem sorted_labels (a : Agenda) : SortedList.Sorted a.labels := by
  refine (List.pairwise_lt_range' 1 (by decide)).imp ?_
  intro l m hlm
  exact Nat.compare_eq_lt.2 hlm

/-- Labels are counts if the size of the agenda is. -/
theorem lt_limit (h : a.size < Count.limit) (hl : l ∈ a.labels) : l < Count.limit :=
  Nat.lt_of_le_of_lt (mem_labels.1 hl).2 h

theorem map_fst_entries (a : Agenda) : a.entries.map Prod.fst = a.labels := by
  rw [entries, List.map_fst_zip]
  simp [labels, size]

theorem map_snd_entries (a : Agenda) : a.entries.map Prod.snd = a.formulas := by
  rw [entries, List.map_snd_zip]
  simp [labels, size]

/-- The pairs of labels and formulas say which formula a label has. -/
theorem mem_entries : (l, f) ∈ a.entries ↔ a.get? l = some f := by
  rw [entries, List.mem_iff_getElem?]
  simp only [labels, size, List.getElem?_zip_eq_some]
  cases l with
  | zero =>
    simp only [get?, reduceCtorEq, iff_false]
    rintro ⟨i, hi, -⟩
    obtain ⟨_, hi⟩ := List.getElem?_eq_some_iff.1 hi
    rw [List.getElem_range'] at hi
    omega
  | succ l =>
    rw [get?]
    constructor
    · rintro ⟨i, hi, hf⟩
      obtain ⟨_, hi⟩ := List.getElem?_eq_some_iff.1 hi
      have hil : i = l := by
        rw [List.getElem_range'] at hi
        omega
      rw [← hil, hf]
    · intro hf
      obtain ⟨hlt, -⟩ := List.getElem?_eq_some_iff.1 hf
      refine ⟨l, ?_, hf⟩
      rw [List.getElem?_range' hlt]
      simp [Nat.add_comm]

/-- What is said of each label by what is said of its formula. -/
theorem map_labels {β : Type} {g : Nat → β} {G : Formula → β}
    (h : ∀ l f, a.get? l = some f → g l = G f) :
    a.labels.map g = a.formulas.map G := by
  rw [← map_fst_entries, ← map_snd_entries, List.map_map, List.map_map, List.map_inj_left]
  exact fun p hp => h p.1 p.2 (mem_entries.1 hp)

theorem countP_labels {g : Nat → Bool} {G : Formula → Bool}
    (h : ∀ l f, a.get? l = some f → g l = G f) : a.labels.countP g = a.formulas.countP G := by
  have hcount := congrArg (List.countP id) (map_labels h)
  rwa [List.countP_map, List.countP_map] at hcount

/-- The labels are what has a formula. -/
theorem get?_ne_none_iff : a.get? l ≠ none ↔ l ∈ a.labels := by
  rw [mem_labels]
  cases l with
  | zero => simp [get?]
  | succ l =>
    rw [get?, ne_eq, List.getElem?_eq_none_iff, Nat.not_le]
    exact ⟨fun h => ⟨Nat.le_add_left 1 l, h⟩, fun h => h.2⟩

/-- The formulas of the agenda are what has a label. -/
theorem labelOf?_eq_none : a.labelOf? f = none ↔ f ∉ a.formulas := by
  rw [labelOf?, Option.map_eq_none_iff, List.idxOf?_eq_none_iff]

/-- The label of a formula has this formula. -/
theorem get?_of_labelOf? (h : a.labelOf? f = some l) : a.get? l = some f := by
  obtain ⟨i, hi, rfl⟩ := Option.map_eq_some_iff.1 h
  obtain ⟨_, hf, -⟩ := List.idxOf?_eq_some_iff.1 hi
  rw [get?, List.getElem?_eq_some_iff]
  exact ⟨_, hf⟩

/-- Without repetitions a formula has one label. -/
theorem get?_injective {m : Nat} (hnodup : a.formulas.Nodup) (hl : a.get? l = some f)
    (hm : a.get? m = some f) : l = m := by
  cases l with
  | zero => cases hl
  | succ l =>
    cases m with
    | zero => cases hm
    | succ m =>
      obtain ⟨hlt, -⟩ := List.getElem?_eq_some_iff.1 hl
      rw [(List.getElem?_inj hlt hnodup).1 (hl.trans hm.symm)]

/-- A label has a formula of the agenda. -/
theorem mem_of_get? (h : a.get? l = some f) : f ∈ a.formulas :=
  (List.of_mem_zip (mem_entries.2 h)).2

/-- A formula of the agenda has a label. -/
theorem exists_get? (h : f ∈ a.formulas) : ∃ l, a.get? l = some f := by
  obtain ⟨l, hl⟩ := Option.ne_none_iff_exists'.1 (labelOf?_eq_none.not_left.2 h)
  exact ⟨l, get?_of_labelOf? hl⟩

/-! ### One more formula -/

theorem size_push (a : Agenda) (f : Formula) : (a.push f).size = a.size + 1 :=
  List.length_append

/-- Labels keep their formulas when the agenda is extended. -/
theorem get?_push (hl : l ∈ a.labels) : (a.push f).get? l = a.get? l := by
  cases l with
  | zero => rfl
  | succ l => exact List.getElem?_append_left (mem_labels.1 hl).2

/-- The labels that formulas have are not changed by one more formula. -/
theorem labelOf?_push {g : Formula} (hf : f ∈ a.formulas) :
    (a.push g).labelOf? f = a.labelOf? f := by
  obtain ⟨i, hi⟩ := Option.isSome_iff_exists.1 (List.isSome_idxOf?.2 hf)
  have happend : (a.formulas ++ [g]).idxOf? f = some i := by
    rw [List.idxOf?] at hi ⊢
    rw [List.findIdx?_append, hi, Option.some_or]
  rw [labelOf?, labelOf?, push, happend, hi]

/-- The agenda has no formula twice after a new one is added. -/
theorem nodup_push (h : a.formulas.Nodup) (hf : f ∉ a.formulas) : (a.push f).formulas.Nodup := by
  refine List.nodup_append.2 ⟨h, List.pairwise_singleton _ _, fun g hg f' hf' => ?_⟩
  rw [List.mem_singleton.1 hf']
  rintro rfl
  exact hf hg

/-- The names are those of the labels. -/
theorem mem_labelNames {v : String} : v ∈ a.labelNames ↔ ∃ l ∈ a.labels, variableName l = v := by
  rw [labelNames, SortedList.mem_ofList, List.mem_map]

/-! ### Outcomes -/

/-- The outcome that gives the labels some values. -/
def outcomeOf (a : Agenda) (J : Nat → Bool) : Outcome :=
  ⟨a.labels.map fun l => (l, J l), by
    have hfst : (Prod.fst ∘ fun l => (l, J l)) = id := rfl
    rw [List.map_map, hfst, List.map_id]
    exact a.sorted_labels⟩

@[simp] theorem values_outcomeOf (a : Agenda) (J : Nat → Bool) :
    (a.outcomeOf J).values = a.labels.map fun l => (l, J l) := rfl

/-- The outcome that gives each label the value of its formula. -/
def outcome (a : Agenda) (A : Valuation String) : Outcome :=
  ⟨a.entries.map fun p => (p.1, p.2.eval A), by
    have hfst : (Prod.fst ∘ fun p : Nat × Formula => (p.1, p.2.eval A)) = Prod.fst := rfl
    rw [List.map_map, hfst, map_fst_entries]
    exact a.sorted_labels⟩

@[simp] theorem values_outcome (a : Agenda) (A : Valuation String) :
    (a.outcome A).values = a.entries.map fun p => (p.1, p.2.eval A) := rfl

/-- The outcome that gives each label the value of its variable. -/
def reading (a : Agenda) (A : Valuation String) : Outcome :=
  a.outcomeOf fun l => A (variableName l)

theorem outcome_eq_iff {o o' : Outcome} : o = o' ↔ o.values = o'.values := by
  cases o
  cases o'
  simp

/-- Outcomes are the same that have the same values on the labels. -/
theorem outcomeOf_eq_iff {J J' : Nat → Bool} :
    a.outcomeOf J = a.outcomeOf J' ↔ ∀ l ∈ a.labels, J l = J' l := by
  rw [outcome_eq_iff, values_outcomeOf, values_outcomeOf, List.map_inj_left]
  simp

/-- An outcome has the values it is made of. -/
theorem value?_outcomeOf {J : Nat → Bool} (hl : l ∈ a.labels) :
    (a.outcomeOf J).value? l = some (J l) :=
  (SortedList.get?_eq_some_iff (a.outcomeOf J).sorted).2 (List.mem_map.2 ⟨l, hl, rfl⟩)

/-- The outcome of a valuation has the values of the formulas. -/
theorem value?_outcome (h : a.get? l = some f) (A : Valuation String) :
    (a.outcome A).value? l = some (f.eval A) :=
  (SortedList.get?_eq_some_iff (a.outcome A).sorted).2
    (List.mem_map.2 ⟨(l, f), mem_entries.2 h, rfl⟩)

/-- The outcome read off the labels depends on what a model on their variables looks like, and the
other way round. -/
theorem reading_eq_iff : a.reading A = a.reading A' ↔
    a.labelNames.map (fun name => (name, A name)) =
      a.labelNames.map fun name => (name, A' name) := by
  rw [reading, reading, outcomeOf_eq_iff, List.map_inj_left]
  constructor
  · intro h v hv
    obtain ⟨l, hl, rfl⟩ := mem_labelNames.1 hv
    rw [h l hl]
  · intro h l hl
    exact (Prod.mk.inj (h _ (mem_labelNames.2 ⟨l, hl, rfl⟩))).2

/-- A model on the variables of the labels is decoded to what it says of the labels. -/
theorem ofModel_eq_reading (h : a.size < Count.limit) (A : Valuation String) :
    Outcome.ofModel (a.labelNames.map fun name => (name, A name)) = a.reading A := by
  rw [outcome_eq_iff]
  have hmem (p : Nat × Bool) : p ∈ (a.labelNames.map fun name => (name, A name)).filterMap
      (fun p => (ofVariable? p.1).map fun l => (l, p.2)) ↔
        p ∈ (a.reading A).values := by
    simp only [List.mem_filterMap, List.mem_map, reading, values_outcomeOf, mem_labelNames]
    constructor
    · rintro ⟨_, ⟨_, ⟨l, hl, rfl⟩, rfl⟩, hp⟩
      rw [ofVariable?_variableName (lt_limit h hl)] at hp
      exact ⟨l, hl, Option.some_inj.1 hp⟩
    · rintro ⟨l, hl, rfl⟩
      refine ⟨_, ⟨_, ⟨l, hl, rfl⟩, rfl⟩, ?_⟩
      rw [ofVariable?_variableName (lt_limit h hl)]
      rfl
  refine SortedList.eq_of_pair_mem_iff (SortedList.sorted_ofPairs _) (a.reading A).sorted ?_
  intro p
  refine (SortedList.mem_ofPairs ?_).trans (hmem p)
  -- Different names of labels are read as different labels.
  refine List.Pairwise.filterMap _ (R := fun p q : String × Bool => p.1 ∈ a.labelNames ∧
    q.1 ∈ a.labelNames ∧ p.1 ≠ q.1) ?_ ?_
  · rintro p q ⟨hp, hq, hne⟩ p' hp' q' hq'
    obtain ⟨l, hl, hlp⟩ := mem_labelNames.1 hp
    obtain ⟨m, hm, hmq⟩ := mem_labelNames.1 hq
    rw [← hlp, ofVariable?_variableName (lt_limit h hl)] at hp'
    rw [← hmq, ofVariable?_variableName (lt_limit h hm)] at hq'
    cases hp'
    cases hq'
    rintro rfl
    exact hne (hlp.symm.trans hmq)
  · rw [List.pairwise_map]
    refine (SortedList.sorted_ofList _).imp_of_mem ?_
    intro v w hv hw hlt
    refine ⟨hv, hw, ?_⟩
    rintro rfl
    exact SortedList.not_compare_lt hlt hlt

/-! ### Faithful valuations -/

/-- A valuation is **faithful** when the variables of the labels have the values of the formulas. -/
def Faithful (a : Agenda) (A : Valuation String) : Prop :=
  ∀ p ∈ a.entries, A (variableName p.1) = p.2.eval A

/-- The definitions of the labels say that a valuation is faithful. -/
theorem eval_definitions : (∀ f ∈ a.definitions, f.eval A = true) ↔ a.Faithful A := by
  simp only [definitions, List.mem_flatMap, definition]
  constructor
  · intro h p hp
    have himplies := h _ ⟨p, hp, List.mem_cons_self⟩
    have himplied := h _ ⟨p, hp, List.mem_cons_of_mem _ List.mem_cons_self⟩
    rw [Formula.negateNormal] at himplied
    simp only [Formula.eval_or, List.any_cons, List.any_nil, Formula.eval_not, Formula.eval_atom,
      Formula.eval_normal] at himplies himplied
    cases hA : A (variableName p.1) <;> simp_all
  · rintro h f ⟨p, hp, hf⟩
    have hA := h p hp
    rcases List.mem_pair.1 hf with rfl | rfl
    · simp [hA]
    · simp [Formula.negateNormal, Formula.eval_normal, hA]

/-- What is read off a faithful valuation is the outcome of its values of the formulas. -/
theorem Faithful.reading_eq (h : a.Faithful A) : a.reading A = a.outcome A := by
  rw [outcome_eq_iff, reading, values_outcomeOf, values_outcome, ← map_fst_entries, List.map_map,
    List.map_inj_left]
  intro p hp
  rw [Function.comp_apply, h p hp]

/-- The valuation with the variables of the labels given the values of the formulas. -/
def complete (a : Agenda) (A : Valuation String) : Valuation String := fun v =>
  match a.entries.find? fun p => variableName p.1 == v with
  | some p => p.2.eval A
  | none => A v

/-- The completion of a valuation leaves the words as they are. -/
theorem complete_of_isWord {v : String} (hv : IsWord v) : a.complete A v = A v := by
  have hnone : (a.entries.find? fun p => variableName p.1 == v) = none := by
    refine List.find?_eq_none.2 fun p _ hp => hv.head?_ne ?_
    rw [← beq_iff_eq.1 hp, toList_variableName]
    rfl
  rw [complete, hnone]

theorem eval_complete (hf : f.Readable) : f.eval (a.complete A) = f.eval A :=
  Formula.eval_congr fun v hv => complete_of_isWord (hf v hv)

/-- The completion of a valuation is faithful. -/
theorem faithful_complete (hf : ∀ f ∈ a.formulas, f.Readable) : a.Faithful (a.complete A) := by
  intro p hp
  obtain ⟨q, hq⟩ : ∃ q, (a.entries.find? fun q => variableName q.1 == variableName p.1) = some q :=
    Option.isSome_iff_exists.1 (List.find?_isSome.2 ⟨p, hp, beq_self_eq_true _⟩)
  have hname := List.find?_some hq
  have hlabel : q.1 = p.1 := variableName_injective (beq_iff_eq.1 hname)
  have hget : a.get? p.1 = some q.2 := hlabel ▸ mem_entries.1 (List.mem_of_find?_eq_some hq)
  have hformula : p.2 = q.2 := Option.some_inj.1 ((mem_entries.1 hp).symm.trans hget)
  rw [eval_complete (hf p.2 (List.of_mem_zip hp).2), complete, hq, hformula]

end Agenda

end JudgmentAggregation
