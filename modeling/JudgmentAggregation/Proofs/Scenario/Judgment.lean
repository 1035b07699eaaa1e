import JudgmentAggregation.Proofs.Formula.Order
import JudgmentAggregation.Proofs.Scenario.Agenda
import JudgmentAggregation.Scenario.Change

/-!
# Judgment sets and the valuations that back them

A judgment set lists the formulas that it accepts and, once more, their labels. It is **on** an
agenda when the two lists say the same thing (`JudgmentSet.On`), which stays so when the agenda
grows. A valuation **backs** a judgment set when it satisfies the input constraints and makes
exactly the accepted formulas of the agenda true (`Scenario.Backs`). Where the agenda has no formula
twice, this can be said of the labels just as well (`Scenario.consistent_iff`).
-/

namespace JudgmentAggregation

/-- A judgment set is **on** an agenda when its labels are labels of the agenda and its accepted
formulas are the formulas of its labels. -/
structure JudgmentSet.On (j : JudgmentSet) (a : Agenda) : Prop where
  labels : ∀ l ∈ j.labels, l ∈ a.labels
  accepted : ∀ f, f ∈ j.accepted ↔ ∃ l ∈ j.labels, a.get? l = some f

namespace JudgmentSet.On

variable {j : JudgmentSet} {a : Agenda} {f : Formula} {l : Nat}

/-- A group on the agenda accepts formulas of the agenda. -/
theorem mem_formulas (h : j.On a) (hf : f ∈ j.accepted) : f ∈ a.formulas := by
  obtain ⟨l, -, hl⟩ := (h.accepted f).1 hf
  exact Agenda.mem_of_get? hl

/-- A group stays on the agenda when it is extended. -/
theorem push (h : j.On a) (f : Formula) : j.On (a.push f) := by
  refine ⟨fun l hl => ?_, fun g => ?_⟩
  · have hsize := Agenda.mem_labels.1 (h.labels l hl)
    exact Agenda.mem_labels.2 ⟨hsize.1, by rw [Agenda.size_push]; omega⟩
  · rw [h.accepted]
    exact exists_congr fun l => and_congr_right fun hl => by rw [Agenda.get?_push (h.labels l hl)]

/-- Where no formula occurs twice, a label is accepted if its formula is. -/
theorem accepts_iff (h : j.On a) (hnodup : a.formulas.Nodup) (hl : a.get? l = some f) :
    j.accepts l = true ↔ f ∈ j.accepted := by
  rw [JudgmentSet.accepts, List.contains_iff_mem, h.accepted]
  constructor
  · exact fun hmem => ⟨l, hmem, hl⟩
  · rintro ⟨m, hm, hf⟩
    rwa [Agenda.get?_injective hnodup hl hf]

end JudgmentSet.On

namespace Scenario

variable {s : Scenario} {f : Formula} {fs : List Formula} {j j' : JudgmentSet} {n : Nat}
  {A : Valuation String}

/-! ### The judgment set that is asked for -/

/-- The group of voters who accept some formulas of the agenda. -/
def group (s : Scenario) (multiplicity : Nat) (accepted : List Formula) : JudgmentSet :=
  ⟨multiplicity, SortedList.ofList (accepted.map Formula.toNormal),
    SortedList.ofList ((accepted.map Formula.toNormal).filterMap s.agenda.labelOf?)⟩

/-- The formulas are accepted, unless one is not in the agenda. -/
theorem accept_eq (s : Scenario) (fs : List Formula) (j : JudgmentSet) :
    s.accept fs j = match fs.find? fun f => f ∉ s.agenda.formulas with
      | some f => .error f
      | none => .ok { j with
          accepted := SortedList.insertAll fs j.accepted
          labels := SortedList.insertAll (fs.filterMap s.agenda.labelOf?) j.labels } := by
  induction fs generalizing j with
  | nil => rfl
  | cons f fs ih =>
    rw [accept, List.find?_cons]
    cases hl : s.agenda.labelOf? f with
    | none => simp [Agenda.labelOf?_eq_none.1 hl]
    | some l =>
      have hf : f ∈ s.agenda.formulas := Agenda.mem_of_get? (Agenda.get?_of_labelOf? hl)
      rw [List.filterMap_cons_some hl]
      simp only [hf, not_true_eq_false, decide_false, ih]
      rfl

/-- Formulas of the agenda can be accepted. -/
theorem accept_eq_group (h : ∀ f ∈ fs, f.toNormal ∈ s.agenda.formulas) (n : Nat) :
    s.accept (fs.map Formula.toNormal) ⟨n, [], []⟩ = .ok (s.group n fs) := by
  have hnone : ((fs.map Formula.toNormal).find? fun f => f ∉ s.agenda.formulas) = none := by
    simpa using h
  rw [accept_eq, hnone]
  rfl

/-- The first formula that is not on the agenda cannot be accepted. -/
theorem accept_eq_error {gs : List Formula} (hfs : ∀ g ∈ fs, g.toNormal ∈ s.agenda.formulas)
    (hf : f.toNormal ∉ s.agenda.formulas) (j : JudgmentSet) :
    s.accept ((fs ++ f :: gs).map Formula.toNormal) j = .error f.toNormal := by
  have hsome : (((fs ++ f :: gs).map Formula.toNormal).find? fun f => f ∉ s.agenda.formulas) =
      some f.toNormal := by
    rw [List.find?_eq_some_iff_append]
    exact ⟨by simpa using hf, fs.map Formula.toNormal, gs.map Formula.toNormal, by simp,
      by simpa using hfs⟩
  rw [accept_eq, hsome]

/-- Formulas are accepted if they are all in the agenda. -/
theorem accept_ok (h : s.accept (fs.map Formula.toNormal) ⟨n, [], []⟩ = .ok j) :
    (∀ f ∈ fs, f.toNormal ∈ s.agenda.formulas) ∧ j = s.group n fs := by
  rw [accept_eq] at h
  split at h
  · cases h
  · next hnone =>
    cases h
    exact ⟨by simpa using hnone, rfl⟩

/-- A group that accepts formulas of the agenda is on it. -/
theorem group_on (h : ∀ f ∈ fs, f.toNormal ∈ s.agenda.formulas) (n : Nat) :
    (s.group n fs).On s.agenda := by
  have hlabels {l} : l ∈ (s.group n fs).labels ↔
      ∃ f ∈ fs, s.agenda.labelOf? f.toNormal = some l := by
    simp [group, SortedList.mem_ofList]
  refine ⟨fun l hl => ?_, fun g => ?_⟩
  · obtain ⟨f, -, hf⟩ := hlabels.1 hl
    rw [← Agenda.get?_ne_none_iff, Agenda.get?_of_labelOf? hf]
    exact Option.some_ne_none _
  · rw [group, SortedList.mem_ofList, List.mem_map]
    constructor
    · rintro ⟨f, hf, rfl⟩
      obtain ⟨l, hl⟩ := Option.ne_none_iff_exists'.1 (Agenda.labelOf?_eq_none.not_left.2 (h f hf))
      exact ⟨l, hlabels.2 ⟨f, hf, hl⟩, Agenda.get?_of_labelOf? hl⟩
    · rintro ⟨l, hl, hg⟩
      obtain ⟨f, hf, hlabel⟩ := hlabels.1 hl
      exact ⟨f, hf, Option.some_inj.1 ((Agenda.get?_of_labelOf? hlabel).symm.trans hg)⟩

/-! ### Valuations that back a judgment set -/

/-- A judgment set is **consistent** with a scenario when some valuation that satisfies the input
constraints makes exactly the accepted formulas of the agenda true. -/
def Consistent (s : Scenario) (j : JudgmentSet) : Prop :=
  ∃ A : Valuation String, (∀ f ∈ s.inputs, f.eval A = true) ∧
    ∀ p ∈ s.agenda.entries, p.2.eval A = j.accepts p.1

/-- A valuation **backs** a judgment set when it satisfies the input constraints and makes exactly
the accepted formulas of the agenda true. -/
structure Backs (s : Scenario) (j : JudgmentSet) (A : Valuation String) : Prop where
  inputs : ∀ f ∈ s.inputs, f.eval A = true
  agenda : ∀ f ∈ s.agenda.formulas, f.eval A = true ↔ f ∈ j.accepted

/-- A group is consistent exactly if a valuation backs it. -/
theorem consistent_iff (hnodup : s.agenda.formulas.Nodup) (hj : j.On s.agenda) :
    s.Consistent j ↔ ∃ A, s.Backs j A := by
  refine exists_congr fun A => ⟨fun ⟨hinputs, hlabels⟩ => ⟨hinputs, fun f hf => ?_⟩,
    fun h => ⟨h.inputs, fun p hp => ?_⟩⟩
  · obtain ⟨l, hl⟩ := Agenda.exists_get? hf
    rw [hlabels (l, f) (Agenda.mem_entries.2 hl), hj.accepts_iff hnodup hl]
  · have hl := Agenda.mem_entries.1 hp
    rw [Bool.eq_iff_iff, hj.accepts_iff hnodup hl, h.agenda _ (Agenda.mem_of_get? hl)]

end Scenario

end JudgmentAggregation
