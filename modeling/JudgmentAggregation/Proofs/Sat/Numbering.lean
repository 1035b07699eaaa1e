import JudgmentAggregation.Proofs.Sat.VariableIndex
import JudgmentAggregation.Proofs.Session
import Mathlib.Logic.Relation

/-!
# An index in use

The numbers that an index has handed out are kept in a record (`VariableIndex.Record`): those for
names, and those without a name. However an index is used, for names, literals or CNF formulas, or
for numbers without a name, one by one or many at once, what happens is a sequence of two kinds of
steps (`Record.steps_use`): a name is inserted, or some numbers are allocated.

A record is **sound** when the names have the numbers that have been handed out for them, names and
numbers determine each other, and every number up to the size of the index has been handed out,
either for a name or without one. Both kinds of steps keep this, and they change no number of a name
and name no number without a name. So it holds whatever an index has been used for
(`Record.useAll_exact`), and what a CNF formula has become goes on to mean the same.
-/

namespace JudgmentAggregation

namespace VariableIndex

open ListFacts

/-- A use of an index. -/
inductive Use
  | name (name : String)
  | anonymous
  | reserve (n : Nat)
  | literal (l : Literal String)
  | clauses (F : Cnf String)

/-- An index, the numbers that it has handed out for names, each with its name, and the numbers that
it has handed out without a name. -/
structure Record where
  index : VariableIndex
  named : List (String × Nat)
  nameless : List Nat

namespace Record

/-- Nothing has been handed out. -/
def empty : Record := ⟨.empty, [], []⟩

/-- A name gets a number. -/
def insert (name : String) (r : Record) : Record :=
  let (v, index) := r.index.insert name
  { r with index, named := r.named ++ [(name, v)] }

/-- `n` more numbers without a name. -/
def allocate (n : Nat) (r : Record) : Record :=
  { r with index := r.index.allocate n,
           nameless := r.nameless ++ List.range' (r.index.size + 1) n }

/-- A use of the index. Numbers that cannot be reserved leave everything as it is. -/
def use (r : Record) : Use → Record
  | .name name => r.insert name
  | .anonymous =>
    let (v, index) := r.index.anonymous
    { r with index, nameless := r.nameless ++ [v] }
  | .reserve n =>
    match r.index.reserve n with
    | .ok index =>
      { r with index, nameless := r.nameless ++ List.range' (r.index.size + 1) n }
    | .error _ => r
  | .literal l =>
    let (m, index) := r.index.literal l
    { r with index, named := r.named ++ [(l.var, m.var)] }
  | .clauses F =>
    let (G, index) := r.index.cnf F
    { r with
      index
      named := r.named ++ (F.flatten.map Literal.var).zip (G.flatten.map Literal.var) }

/-- Several uses, one after the other. -/
def useAll (us : List Use) (r : Record) : Record :=
  us.foldl use r

/-! ### Two kinds of steps -/

theorem length_clause (i : VariableIndex) (c : Clause String) :
    (i.clause c).1.length = c.length := by
  induction c generalizing i with
  | nil => rfl
  | cons l c ih => exact congrArg (· + 1) (ih (i.literal l).2)

/-- A step inserts a name or allocates numbers. -/
inductive Step : Record → Record → Prop
  | insert (r : Record) (name : String) : Step r (r.insert name)
  | allocate (r : Record) (n : Nat) : Step r (r.allocate n)

/-- Any number of steps. -/
abbrev Steps : Record → Record → Prop := Relation.ReflTransGen Step

variable {r r' : Record}

/-- The numbers of a clause are those of the names of its literals, inserted one by one. -/
theorem steps_clause (r : Record) (c : Clause String) :
    Steps r { r with
      index := (r.index.clause c).2
      named := r.named ++ (c.map Literal.var).zip ((r.index.clause c).1.map Literal.var) } := by
  induction c generalizing r with
  | nil =>
    rw [clause, List.map_nil, List.zip_nil_left, List.append_nil]
  | cons l c ih =>
    have h := ih (r.insert l.var)
    simp only [insert, List.append_assoc] at h
    exact .head (.insert r l.var) h

/-- To number a CNF formula is to insert the names of its literals, step by step. -/
theorem steps_cnf (r : Record) (F : Cnf String) :
    Steps r { r with
      index := (r.index.cnf F).2
      named := r.named ++
        (F.flatten.map Literal.var).zip ((r.index.cnf F).1.flatten.map Literal.var) } := by
  induction F generalizing r with
  | nil =>
    rw [cnf, List.flatten_nil, List.map_nil, List.zip_nil_left, List.append_nil]
  | cons c F ih =>
    have h := ih { r with
      index := (r.index.clause c).2
      named := r.named ++ (c.map Literal.var).zip ((r.index.clause c).1.map Literal.var) }
    have hlength : (c.map Literal.var).length = ((r.index.clause c).1.map Literal.var).length := by
      rw [List.length_map, List.length_map, length_clause]
    rw [List.append_assoc, ← List.zip_append hlength, ← List.map_append, ← List.map_append] at h
    exact (steps_clause r c).trans h

/-- Every use consists of steps. -/
theorem steps_use (r : Record) (u : Use) : Steps r (r.use u) := by
  cases u with
  | name name => exact .single (.insert r name)
  | anonymous => exact .single (.allocate r 1)
  | reserve n =>
    rw [use, VariableIndex.reserve]
    by_cases hn : r.index.size + n ≤ capacity
    · rw [if_pos hn]
      exact .single (.allocate r n)
    · rw [if_neg hn]
  | literal l => exact .single (.insert r l.var)
  | clauses F => exact steps_cnf r F

/-- Any uses are made of steps. -/
theorem steps_useAll (us : List Use) (r : Record) : Steps r (r.useAll us) := by
  induction us generalizing r with
  | nil => exact .refl
  | cons u us ih => exact (steps_use r u).trans (ih (r.use u))

/-! ### What the steps keep -/

/-- A record is **sound** when it tells what the index has handed out. -/
structure Sound (r : Record) : Prop where
  orderly : r.index.Orderly
  named_iff : ∀ name v, (name, v) ∈ r.named ↔ r.index.get? name = some v
  nodup : r.nameless.Nodup
  given : ∀ v ∈ r.nameless, 0 < v ∧ v ≤ r.index.size
  unnamed : ∀ v ∈ r.nameless, ∀ name, r.index.get? name ≠ some v
  covered : ∀ v, 0 < v → v ≤ r.index.size → v ∈ r.nameless ∨ ∃ name, r.index.get? name = some v

/-- A later record keeps the numbers of the names and names no number without a name. -/
structure Keeps (r r' : Record) : Prop where
  index : r.index.Extends r'.index
  nameless : ∀ v ∈ r.nameless, v ∈ r'.nameless

theorem sound_empty : empty.Sound where
  orderly := orderly_empty
  named_iff name v := by simp [empty, VariableIndex.empty, get?]
  nodup := .nil
  given v hv := by simp [empty] at hv
  unnamed v hv := by simp [empty] at hv
  covered v hv hle := by
    simp only [empty, VariableIndex.empty] at hle
    omega

/-- A name that is inserted has its number already or gets the next one. -/
theorem insert_cases (i : VariableIndex) (name : String) :
    (∃ v, i.get? name = some v ∧ i.insert name = (v, i)) ∨
      i.get? name = none ∧
        i.insert name = (i.size + 1, ⟨(name, i.size + 1) :: i.names, i.size + 1⟩) := by
  rw [VariableIndex.insert]
  cases hv : i.get? name with
  | some v => exact .inl ⟨v, rfl, rfl⟩
  | none => exact .inr ⟨rfl, rfl⟩

/-- A record stays sound when a name is inserted. -/
theorem Sound.insert (h : r.Sound) (name : String) : (r.insert name).Sound := by
  have ho := numbers_insert.orderly name r.index h.orderly
  have hname := numbers_insert.related name r.index h.orderly
  obtain ⟨v, hv, heq⟩ | ⟨hnone, heq⟩ := insert_cases r.index name <;>
    simp only [Record.insert, heq] at ho hname ⊢
  · -- The name and its number are recorded once more.
    refine ⟨ho, fun n w => ?_, h.nodup, h.given, h.unnamed, h.covered⟩
    rw [List.mem_append, List.mem_singleton, h.named_iff, Prod.mk.injEq]
    exact or_iff_left_of_imp fun ⟨hn, hw⟩ => hn ▸ hw ▸ hv
  · -- The new name has the next number, and the other names keep theirs.
    have hget : ∀ n w,
        get? ⟨(name, r.index.size + 1) :: r.index.names, r.index.size + 1⟩ n = some w ↔
        r.index.get? n = some w ∨ n = name ∧ w = r.index.size + 1 := fun n w => by
      constructor
      · intro hw
        obtain hnew | ⟨-, hold⟩ := lookup_cons_eq_some hw
        · exact .inr hnew
        · exact .inl hold
      · rintro (hw | ⟨rfl, rfl⟩)
        · exact lookup_cons_of_lookup hnone hw
        · exact hname
    refine ⟨ho, fun n w => ?_, h.nodup, fun v hv => ?_, fun v hv n hn => ?_, fun v hv hle => ?_⟩
    · rw [List.mem_append, List.mem_singleton, h.named_iff, Prod.mk.injEq, hget]
    · exact ⟨(h.given v hv).1, Nat.le_succ_of_le (h.given v hv).2⟩
    · rcases (hget n v).1 hn with hn | ⟨-, rfl⟩
      · exact h.unnamed v hv n hn
      · exact Nat.not_succ_le_self _ (h.given _ hv).2
    · rcases Nat.le_succ_iff.1 hle with hle | rfl
      · exact (h.covered v hv hle).imp_right fun ⟨n, hn⟩ => ⟨n, (hget n v).2 (.inl hn)⟩
      · exact .inr ⟨name, hname⟩

/-- A record stays sound when numbers are reserved. -/
theorem Sound.allocate (h : r.Sound) (n : Nat) : (r.allocate n).Sound := by
  have hnew : ∀ v, v ∈ List.range' (r.index.size + 1) n ↔
      r.index.size < v ∧ v ≤ r.index.size + n := fun v => by
    rw [List.mem_range'_1]
    omega
  refine ⟨h.orderly.allocate n, h.named_iff, ?_, fun v hv => ?_, fun v hv name hn => ?_,
    fun v hv hle => ?_⟩
  · refine List.nodup_append.2 ⟨h.nodup, List.nodup_range', fun v hv w hw hvw => ?_⟩
    exact Nat.not_lt.2 (h.given v hv).2 (hvw ▸ ((hnew w).1 hw).1)
  · show 0 < v ∧ v ≤ r.index.size + n
    rcases List.mem_append.1 hv with hv | hv
    · have := h.given v hv
      omega
    · have := (hnew v).1 hv
      omega
  · rcases List.mem_append.1 hv with hv | hv
    · exact h.unnamed v hv name hn
    · exact Nat.not_le.2 ((hnew v).1 hv).1 (h.orderly.le_size hn)
  · by_cases hold : v ≤ r.index.size
    · exact (h.covered v hv hold).imp_left (List.mem_append_left _)
    · exact .inl (List.mem_append_right _ ((hnew v).2 ⟨by omega, hle⟩))

theorem Keeps.refl (r : Record) : r.Keeps r :=
  ⟨.refl _, fun _ h => h⟩

theorem Keeps.trans {r'' : Record} (h : r.Keeps r') (h' : r'.Keeps r'') : r.Keeps r'' :=
  ⟨h.index.trans h'.index, fun v hv => h'.nameless v (h.nameless v hv)⟩

/-- A step leaves a sound record that keeps what has been handed out. -/
theorem Step.spec (hstep : Step r r') (h : r.Sound) : r'.Sound ∧ r.Keeps r' := by
  cases hstep with
  | insert name =>
    exact ⟨h.insert name, numbers_insert.grows name r.index h.orderly, fun _ hv => hv⟩
  | allocate n =>
    exact ⟨h.allocate n, extends_allocate r.index n, fun _ hv => List.mem_append_left _ hv⟩

/-- After any steps, a record is sound and has kept what it had. -/
theorem Steps.spec (hsteps : Steps r r') (h : r.Sound) : r'.Sound ∧ r.Keeps r' := by
  induction hsteps with
  | refl => exact ⟨h, .refl r⟩
  | tail _ hstep ih =>
    obtain ⟨hsound, hkeeps⟩ := ih
    obtain ⟨hsound', hkeeps'⟩ := hstep.spec hsound
    exact ⟨hsound', hkeeps.trans hkeeps'⟩

/-! ### Any uses -/

/-- A number has a name exactly if the name has the number. -/
theorem Sound.nameOf_eq_some (h : r.Sound) {name : String} {v : Nat} :
    r.index.nameOf v = .ok (some name) ↔ r.index.get? name = some v := by
  rw [nameOf]
  by_cases hv : v = 0
  · rw [if_pos hv]
    refine iff_of_false (by simp) fun hname => ?_
    exact Nat.pos_iff_ne_zero.1 (h.orderly.pos hname) hv
  · rw [if_neg hv, Except.ok.injEq, h.orderly.nameOf?_eq_some_iff]

/-- The numbers that are given without names have none. -/
theorem Sound.nameOf_eq_none (h : r.Sound) {v : Nat} (hv : v ∈ r.nameless) :
    r.index.nameOf v = .ok none := by
  rw [nameOf, if_neg (Nat.pos_iff_ne_zero.1 (h.given v hv).1), Except.ok.injEq,
    Option.eq_none_iff_forall_ne_some]
  exact fun name hname => h.unnamed v hv name (h.orderly.nameOf?_eq_some_iff.1 hname)

/-- The clauses that a CNF formula becomes say of a valuation of the numbers what the formula says
of the values that the names have by it, also when the index has been used further. -/
theorem Sound.eval_cnf (h : r.Sound) (F : Cnf String) (hr' : (r.use (.clauses F)).Keeps r')
    (N : Valuation Nat) : (r.index.cnf F).1.eval N = F.eval (r'.index.named N) := by
  have hcnf := numbers_cnf.related F r.index h.orderly
  exact cnf_eval_eq (numbers_cnf.mono _ _ F _ hr'.index hcnf) (agrees_named r'.index N)

/-- Whatever an index has been used for, names and numbers determine each other, the numbers handed
out are those from 1 to its size, and no two names and no two numbers without a name coincide.
Whatever it is used for afterwards, the names keep their numbers and the numbers without a name get
none. The clauses of a CNF formula, given to a solver, are true by a valuation of the numbers
exactly if the formula is true by the valuation of the names that it induces. -/
theorem useAll_exact (us us' : List Use) :
    let r := empty.useAll us
    let r' := r.useAll us'
    (∀ name v, r.index.get? name = some v ↔ r.index.nameOf v = .ok (some name)) ∧
    (∀ name v, (name, v) ∈ r.named ↔ r.index.get? name = some v) ∧
    (∀ v, (v ∈ r.nameless ∨ ∃ name, (name, v) ∈ r.named) ↔ 1 ≤ v ∧ v ≤ r.index.size) ∧
    (∀ name name' v, (name, v) ∈ r.named → (name', v) ∈ r.named → name = name') ∧
    r.nameless.Nodup ∧ (∀ v ∈ r.nameless, ∀ name, (name, v) ∉ r.named) ∧
    (∀ name v, r.index.get? name = some v → r'.index.get? name = some v) ∧
    (∀ v ∈ r.nameless, r'.index.nameOf v = .ok none) ∧
    ∀ (F : Cnf String) (s : Solver) (N : Valuation Nat),
      Cnf.eval N (s.addAll (r.index.cnf F).1).clauses =
        (F.eval (((r.use (.clauses F)).useAll us').index.named N) && Cnf.eval N s.clauses) := by
  intro r r'
  have hr : r.Sound := ((steps_useAll us empty).spec sound_empty).1
  obtain ⟨hr', hkeeps⟩ := (steps_useAll us' r).spec hr
  refine ⟨fun name v => hr.nameOf_eq_some.symm, hr.named_iff, fun v => ⟨?_, fun hv => ?_⟩,
    fun name name' v hname hname' => ?_, hr.nodup, fun v hv name hname => ?_, hkeeps.index.kept,
    fun v hv => hr'.nameOf_eq_none (hkeeps.nameless v hv), fun F s N => ?_⟩
  · rintro (hv | ⟨name, hname⟩)
    · exact hr.given v hv
    · have hget := (hr.named_iff name v).1 hname
      exact ⟨hr.orderly.pos hget, hr.orderly.le_size hget⟩
  · exact (hr.covered v hv.1 hv.2).imp_right fun ⟨name, h⟩ => ⟨name, (hr.named_iff name v).2 h⟩
  · have hv := hr.orderly.nameOf?_eq_some_iff.2 ((hr.named_iff name v).1 hname)
    have hv' := hr.orderly.nameOf?_eq_some_iff.2 ((hr.named_iff name' v).1 hname')
    exact Option.some.inj (hv.symm.trans hv')
  · exact hr.unnamed v hv name ((hr.named_iff name v).1 hname)
  · have huse := ((steps_use r (.clauses F)).spec hr).1
    rw [Solver.eval_addAll, hr.eval_cnf F ((steps_useAll us' _).spec huse).2 N]

/-- Names and numbers without a name in turn, the way the four uses give them. -/
example :
    let r := empty.useAll [.name "a", .anonymous, .clauses [[.neg "b", .pos "a"]], .reserve 2]
    r.named = [("a", 1), ("b", 3), ("a", 1)] ∧ r.nameless = [2, 4, 5] ∧ r.index.size = 5 := by
  decide

end Record

end VariableIndex

end JudgmentAggregation
