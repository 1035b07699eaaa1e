import JudgmentAggregation.Proofs.Cnf.Sharing
import JudgmentAggregation.Proofs.Scenario.Label
import Mathlib.Data.List.Induction

/-!
# Converters of different namespaces

The names of a converter are its namespace with a number behind it, and nothing marks where the
number starts. So two converters can give one name for two formulas though their namespaces differ:
`_aux10` is the eleventh name in the namespace `aux` and the first one in `aux1`. This comes about
exactly if one namespace is the other one with the digits of a positive number behind it
(`Converter.auxiliary_inter_iff`).

Namespaces that are the same or differ in this way are not **separate**. Separate namespaces are all
that is needed for no name to be given twice, and for the clauses of the two converters to have a
common model wherever the formulas have one; without them, some conversions of two plain formulas
lead to clauses without a common model (`Converter.separate_exact`).
-/

namespace JudgmentAggregation

namespace Converter

/-! ### Numbers behind a namespace -/

/-- Two namespaces are **separate** when they differ, and not by the digits of a positive number at
the end. -/
def Separate (w w' : String) : Prop :=
  w ≠ w' ∧ ∀ k : Nat, 0 < k → w' ≠ w ++ toString k ∧ w ≠ w' ++ toString k

theorem Separate.symm {w w' : String} (h : Separate w w') : Separate w' w :=
  ⟨h.1.symm, fun k hk => (h.2 k hk).symm⟩

/-- What is left of the digits of a number when some are taken off the end are the digits of a
number: by induction on those taken off, from the last one on. -/
theorem exists_toDigits_eq {i : Nat} {as bs : List Char} (h : Nat.toDigits 10 i = as ++ bs)
    (has : as ≠ []) : ∃ k, as = Nat.toDigits 10 k ∧ (0 < i → 0 < k) := by
  induction bs using List.reverseRecOn generalizing i with
  | nil => exact ⟨i, by rw [h, List.append_nil], fun hi => hi⟩
  | append_singleton bs b ih =>
    have hten : 10 ≤ i := by
      by_contra hlt
      rw [Nat.toDigits_of_lt_base (Nat.lt_of_not_le hlt)] at h
      have hlength := congrArg List.length h
      have hpos := List.length_pos_iff.2 has
      simp only [List.length_append, List.length_cons, List.length_nil] at hlength
      omega
    rw [Nat.toDigits_of_base_le (by decide) hten, ← List.append_assoc] at h
    obtain ⟨k, hk, hpos⟩ := ih (List.append_inj' h rfl).1
    exact ⟨k, hk, fun _ => hpos (Nat.div_pos hten (by decide))⟩

/-- A longer namespace that makes one name with a shorter one is the shorter one with the digits of
a positive number. -/
theorem eq_or_exists_append {w w' : String} {as : List Char} {i j : Nat}
    (hw : w'.toList = w.toList ++ as) (h : (toString i).toList = as ++ (toString j).toList) :
    w' = w ∨ ∃ k, 0 < k ∧ w' = w ++ toString k := by
  by_cases has : as = []
  · rw [has, List.append_nil, String.toList_inj] at hw
    exact .inl hw
  rw [toList_toString, toList_toString] at h
  have hi : 0 < i := by
    -- The number zero has one digit, which is not enough for both parts.
    refine Nat.pos_of_ne_zero fun hi => ?_
    have hlength := congrArg List.length h
    have hpos := List.length_pos_iff.2 has
    have hdigits := @Nat.length_toDigits_pos 10 j
    rw [hi, Nat.toDigits_of_lt_base (by decide), List.length_append,
      List.length_singleton] at hlength
    omega
  obtain ⟨k, rfl, hpos⟩ := exists_toDigits_eq h has
  refine .inr ⟨k, hpos hi, String.toList_inj.1 ?_⟩
  rw [hw, String.toList_append, toList_toString]

/-- Two namespaces have a name in common exactly if they are not separate. -/
theorem auxiliary_inter_iff {w w' : String} :
    (∃ n, Auxiliary ("_" ++ w) n ∧ Auxiliary ("_" ++ w') n) ↔ ¬ Separate w w' := by
  constructor
  · rintro ⟨n, ⟨i, rfl⟩, j, h⟩ ⟨hne, hsep⟩
    have hlist := congrArg String.toList h
    simp only [String.toList_append, List.append_assoc, List.append_cancel_left_eq] at hlist
    obtain ⟨as, hw, hi⟩ | ⟨as, hw, hj⟩ := List.append_eq_append_iff.1 hlist
    · obtain heq | ⟨k, hk, hw'⟩ := eq_or_exists_append hw hi
      · exact hne heq.symm
      · exact (hsep k hk).1 hw'
    · obtain heq | ⟨k, hk, hw'⟩ := eq_or_exists_append hw hj
      · exact hne heq
      · exact (hsep k hk).2 hw'
  · intro h
    -- Behind the number `k`, the digit zero makes the number `10 * k`.
    have shared {w : String} {k : Nat} (hk : 0 < k) :
        w ++ toString k ++ toString 0 = w ++ toString (10 * k) := by
      refine String.toList_inj.1 ?_
      have hdigits := Nat.toDigits_append_toDigits (b := 10) (d := 0) (by decide) hk (by decide)
      simp only [String.toList_append, toList_toString, List.append_assoc, hdigits, Nat.add_zero]
    by_cases hw : w = w'
    · exact ⟨_, ⟨0, rfl⟩, 0, by rw [hw]⟩
    · obtain ⟨k, hk, hor⟩ : ∃ k, 0 < k ∧ (w' = w ++ toString k ∨ w = w' ++ toString k) := by
        by_contra hnone
        exact h ⟨hw, fun k hk => ⟨fun hw' => hnone ⟨k, hk, .inl hw'⟩,
          fun hw' => hnone ⟨k, hk, .inr hw'⟩⟩⟩
      rcases hor with rfl | rfl
      · exact ⟨_, ⟨10 * k, rfl⟩, 0, by
          rw [← shared hk, String.append_assoc]
          simp [String.append_assoc]⟩
      · exact ⟨_, ⟨0, rfl⟩, 10 * k, by rw [← shared hk]; simp [String.append_assoc]⟩

/-! ### Separate namespaces -/

/-- A converter **gives** a name when it has named a formula so. -/
def Gives (c : Converter) (n : String) : Prop :=
  ∃ f, c.nameOf? f = some n

/-- The converters of two namespaces **share no name** when none is given by both, whatever formulas
over words are converted by each of them. -/
def ShareNoName (w w' : String) : Prop :=
  ∀ calls calls' : List (Formula × List String), (∀ p ∈ calls, p.1.Readable) →
    (∀ p ∈ calls', p.1.Readable) → ∀ n, ((ofNamespace w).attemptEach calls).2.Gives n →
      ¬ ((ofNamespace w').attemptEach calls').2.Gives n

/-- The converters of two namespaces **compose** when, whatever formulas over words have been
converted by each of them before, the clauses of two formulas have a common model wherever the two
formulas are true. -/
def Compose (w w' : String) : Prop :=
  ∀ calls calls' : List (Formula × List String), (∀ p ∈ calls, p.1.Readable) →
    (∀ p ∈ calls', p.1.Readable) →
    ∀ f g : Formula, f.isNormal = true → g.isNormal = true → f.Readable → g.Readable →
      ∀ vars vars' : List String, ∃ F ws c G ws' c',
        ((ofNamespace w).attemptEach calls).2.convert f vars = .ok (F, ws, c) ∧
        ((ofNamespace w').attemptEach calls').2.convert g vars' = .ok (G, ws', c') ∧
        ∀ A, f.eval A = true → g.eval A = true →
          ∃ A', (∀ v, IsWord v → A' v = A v) ∧ Cnf.eval A' (F ++ G) = true

variable {c c' : Converter} {f g : Formula} {w w' v : String} {A : Valuation String}
  {F G : Cnf String}

/-- No word is a name that a converter gives. -/
theorem not_auxiliary_of_isWord (hv : IsWord v) : ¬ Auxiliary ("_" ++ w) v :=
  not_auxiliary hv.head?_ne

/-- A name in one of two separate namespaces is not one in the other. -/
theorem Separate.not_auxiliary (h : Separate w w') (hv : Auxiliary ("_" ++ w) v) :
    ¬ Auxiliary ("_" ++ w') v :=
  fun hv' => auxiliary_inter_iff.1 ⟨v, hv, hv'⟩ h

/-- The variables of a conversion are atoms of the formula and auxiliary variables. -/
theorem mem_vars_of_convert (h : c.Orderly) (hnormal : f.isNormal = true) {vars ws : List String}
    (hF : c.convert f vars = .ok (F, ws, c')) (hv : v ∈ F.vars) :
    v ∈ f.vars ∨ Auxiliary c.stem v := by
  obtain ⟨F', ws', d, hF', hext, ho, hnamed, heq⟩ := convert_eq h hnormal vars
  cases hF.symm.trans hF'
  have hν := agrees_naming c'
  rw [(heq _ hν).1] at hv
  obtain ⟨d, hd, l, hl, rfl⟩ := Cnf.mem_vars_rename.1 hv
  have hover := Formula.scheme_over hnormal
  rcases hover.letter d hd l hl with hmem | ⟨u, hu, hlu⟩
  · rw [Naming.write_of_mem_defined hover hmem, ← hext.stem_eq]
    exact .inr ((hnamed _ hmem).auxiliary ho hν)
  · rw [hlu]
    exact .inl hu

/-- Clauses that are exact for two formulas, with the names of separate namespaces, have a common
model: each converter extends the valuation to its own names. -/
theorem Separate.exists_model (h : Separate w w') (ho : c.Orderly) (ho' : c'.Orderly)
    (hstem : c.stem = "_" ++ w) (hstem' : c'.stem = "_" ++ w')
    (hF : c.Exact f F) (hG : c'.Exact g G)
    (hvars : ∀ v ∈ F.vars, v ∈ f.vars ∨ Auxiliary c.stem v) (hf : f.Readable) (hg : g.Readable)
    (hfA : f.eval A = true) (hgA : g.eval A = true) :
    ∃ A', (∀ v, IsWord v → A' v = A v) ∧ Cnf.eval A' (F ++ G) = true := by
  have hword {v} (hv : IsWord v) : c.extend A v = A v :=
    extend_of_not_auxiliary ho (hstem ▸ not_auxiliary_of_isWord hv) A
  have hword' {v} (hv : IsWord v) : c'.extend (c.extend A) v = c.extend A v :=
    extend_of_not_auxiliary ho' (hstem' ▸ not_auxiliary_of_isWord hv) _
  have hFA : F.eval (c'.extend (c.extend A)) = F.eval (c.extend A) := by
    refine Cnf.eval_congr fun d hd l hl => ?_
    rcases hvars l.var (mem_vars.2 ⟨d, hd, l, hl, rfl⟩) with hv | hv
    · exact hword' (hf _ hv)
    · rw [hstem] at hv
      exact extend_of_not_auxiliary ho' (hstem' ▸ h.not_auxiliary hv) _
  have hgA' : g.eval (c.extend A) = g.eval A := Formula.eval_congr fun v hv => hword (hg v hv)
  refine ⟨c'.extend (c.extend A), fun v hv => (hword' hv).trans (hword hv), ?_⟩
  rw [Cnf.eval_append, hFA, (hF c (.refl c) ho A).1, (hG c' (.refl c') ho' _).1, hgA', hfA, hgA]
  rfl

/-- Converters in separate namespaces give no name in common. -/
theorem Separate.shareNoName (h : Separate w w') : ShareNoName w w' := by
  intro calls calls' _ _ n ⟨f, hf⟩ ⟨g, hg⟩
  obtain ⟨hext, ho, -⟩ := attemptEach_spec (orderly_ofNamespace w) calls
  obtain ⟨hext', ho', -⟩ := attemptEach_spec (orderly_ofNamespace w') calls'
  have hn := ho.auxiliary hf
  have hn' := ho'.auxiliary hg
  rw [hext.stem_eq] at hn
  rw [hext'.stem_eq] at hn'
  exact h.not_auxiliary hn hn'

/-- Conversions in separate namespaces can be put together. -/
theorem Separate.compose (h : Separate w w') : Compose w w' := by
  intro calls calls' _ _ f g hnormal hnormal' hf hg vars vars'
  obtain ⟨hext, ho, -⟩ := attemptEach_spec (orderly_ofNamespace w) calls
  obtain ⟨hext', ho', -⟩ := attemptEach_spec (orderly_ofNamespace w') calls'
  have hstem : ((ofNamespace w).attemptEach calls).2.stem = "_" ++ w := hext.stem_eq
  have hstem' : ((ofNamespace w').attemptEach calls').2.stem = "_" ++ w' := hext'.stem_eq
  obtain ⟨F, ws, c, hF, hc, hco, hexact, -⟩ :=
    convert_spec ho (hstem ▸ fun v hv => not_auxiliary_of_isWord (hf v hv)) hnormal vars
  obtain ⟨G, ws', c', hG, hc', hco', hexact', -⟩ :=
    convert_spec ho' (hstem' ▸ fun v hv => not_auxiliary_of_isWord (hg v hv)) hnormal' vars'
  have hvars (v) (hv : v ∈ F.vars) : v ∈ f.vars ∨ Auxiliary c.stem v :=
    hc.stem_eq ▸ mem_vars_of_convert ho hnormal hF hv
  exact ⟨F, ws, c, G, ws', c', hF, hG, fun A hfA hgA =>
    h.exists_model hco hco' (hc.stem_eq.trans hstem) (hc'.stem_eq.trans hstem') hexact hexact' hvars
      hf hg hfA hgA⟩

/-! ### A name given twice -/

/-- The name that a converter gives next. -/
def nextName (c : Converter) : String :=
  c.stem ++ toString c.names.length

namespace Repetition

open Conversion (conjunctionClauses literals)

/-- The conjunction of an atom with itself, `k + 2` times. -/
def conjunction (v : String) (k : Nat) : Formula :=
  .and (List.replicate (k + 2) (.atom v))

/-- A formula whose conversion names that conjunction. -/
def formula (v : String) (k : Nat) : Formula :=
  .or [conjunction v k, .atom "z"]

/-- The formulas with the conjunctions from `s` on, to be converted in turn. -/
def calls (v : String) (s n : Nat) : List (Formula × List String) :=
  (List.range' s n).map fun k => (formula v k, [])

variable {k s n : Nat}

theorem isNormal_formula (v : String) (k : Nat) : (formula v k).isNormal = true := by
  simp [formula, conjunction]

theorem eval_formula : (formula v k).eval A = (A v || A "z") := by
  simp [formula, conjunction]

theorem readable_formula (hv : IsWord v) : (formula v k).Readable := by
  refine Formula.readable_or fun f hf => ?_
  rcases List.mem_pair.1 hf with rfl | rfl
  · refine Formula.readable_and fun f hf => ?_
    rw [List.eq_of_mem_replicate hf]
    intro u hu
    exact Formula.mem_vars_atom.1 hu ▸ hv
  · intro u hu
    rw [Formula.mem_vars_atom.1 hu]
    exact ⟨by decide, by simp⟩

theorem readable_calls (hv : IsWord v) : ∀ p ∈ calls v s n, p.1.Readable := by
  intro p hp
  obtain ⟨k, -, rfl⟩ := List.mem_map.1 hp
  exact readable_formula hv

/-- Conjunctions of different lengths are different. -/
theorem conjunction_ne {j : Nat} (h : j ≠ k) : conjunction v j ≠ conjunction v k := by
  intro heq
  have hlength := congrArg List.length (Formula.and.inj heq)
  simp only [List.length_replicate] at hlength
  omega

/-- The literals of a repeated variable are its positive literal, as often. -/
theorem literals_replicate (v : String) (k : Nat) (t : Conversion) :
    literals (List.replicate k (.atom v)) t = .ok (List.replicate k (.pos v), t) := by
  induction k with
  | zero => rfl
  | succ k ih =>
    rw [List.replicate_succ, literals]
    simp only [Conversion.literal, ih, bind, Except.bind]
    rfl

/-- The converter that has given the next name to the conjunction. -/
def named (c : Converter) (v : String) (k : Nat) : Converter :=
  { c with names := (conjunction v k, c.nextName) :: c.names }

/-- The clauses that the formula is converted into, where `n` is the name. -/
def clauses (n v : String) (k : Nat) : Cnf String :=
  conjunctionClauses (.pos n) (List.replicate (k + 2) (.pos v)) ++ [[.pos n, .pos "z"]]

/-- A conjunction without a name gets the next one, and the clauses that define it. -/
theorem disjuncts_conjunction (h : c.nameOf? (conjunction v k) = none) :
    Conversion.disjuncts (conjunction v k) ⟨c, [], []⟩ = .ok ([.pos c.nextName],
      (⟨named c v k, [c.nextName], []⟩ : Conversion).emitAll
        (conjunctionClauses (.pos c.nextName) (List.replicate (k + 2) (.pos v)))) := by
  have hname : c.name (conjunction v k) = (c.nextName, named c v k) := by
    rw [nameOf?] at h
    rw [name, h]
    rfl
  have hmark : Conversion.mark (conjunction v k) ⟨c, [], []⟩ = ⟨named c v k, [c.nextName], []⟩ := by
    rw [Conversion.mark, hname]
  have hliteral := Conversion.literal_of_compound (f := conjunction v k) (.and _) ⟨c, [], []⟩
  rw [if_neg List.not_mem_nil, hmark, hname] at hliteral
  simp only [conjunction, Conversion.operands, literals_replicate, bind, Except.bind] at hliteral
  simp only [conjunction, Conversion.disjuncts, hliteral, bind, Except.bind]
  rfl

/-- The conversion of the formula gives the next name to the conjunction. -/
theorem convert_formula (h : c.nameOf? (conjunction v k) = none) (vars : List String) :
    c.convert (formula v k) vars =
      .ok (clauses c.nextName v k, SortedList.insertAll [c.nextName] vars, named c v k) := by
  rw [convert, if_pos (isNormal_formula v k)]
  simp only [formula, Conversion.conjuncts, Conversion.disjuncts, Conversion.disjunctsAll,
    disjuncts_conjunction h, Conversion.literal, Conversion.emitAll, Conversion.emit, bind,
    Except.bind, pure, Except.pure, List.append_nil, List.reverse_cons, List.reverse_reverse]
  rfl

/-- As many names have been given as there are calls, and no later conjunction has a name. -/
theorem attemptEach_calls (h : ∀ k, s ≤ k → c.nameOf? (conjunction v k) = none) :
    (c.attemptEach (calls v s n)).2.stem = c.stem ∧
      (c.attemptEach (calls v s n)).2.names.length = c.names.length + n ∧
      ∀ k, s + n ≤ k → (c.attemptEach (calls v s n)).2.nameOf? (conjunction v k) = none := by
  induction n generalizing c s with
  | zero => exact ⟨rfl, rfl, h⟩
  | succ n ih =>
    have hattempt : (c.attempt (formula v s, [])).2 = named c v s := by
      rw [attempt, convert_formula (h s (Nat.le_refl s))]
    have hstep : (c.attemptEach (calls v s (n + 1))).2 =
        ((c.attempt (formula v s, [])).2.attemptEach (calls v (s + 1) n)).2 := rfl
    obtain ⟨hstem, hlength, hnew⟩ := @ih (named c v s) (s + 1) fun k hk =>
      (ListFacts.lookup_cons_of_ne (conjunction_ne (by omega))).trans (h k (by omega))
    rw [hstep, hattempt]
    refine ⟨hstem, ?_, fun k hk => hnew k (by omega)⟩
    rw [hlength, named, List.length_cons]
    omega

/-- Behind the calls up to `k`, the conjunction gets the name with the number `k`. -/
theorem convert_calls (w v : String) (k : Nat) (vars : List String) :
    ∃ ws d, ((ofNamespace w).attemptEach (calls v 0 k)).2.convert (formula v k) vars =
        .ok (clauses ("_" ++ w ++ toString k) v k, ws, d) ∧ d.Gives ("_" ++ w ++ toString k) := by
  obtain ⟨hstem, hlength, hnew⟩ := attemptEach_calls (c := ofNamespace w) (v := v) (s := 0) (n := k)
    fun _ _ => rfl
  have hnext : ((ofNamespace w).attemptEach (calls v 0 k)).2.nextName = "_" ++ w ++ toString k := by
    rw [nextName, hstem, hlength]
    exact congrArg (fun n => "_" ++ w ++ toString n) (Nat.zero_add k)
  have hconvert := convert_formula (hnew k (Nat.le_of_eq (Nat.zero_add k))) vars
  rw [hnext] at hconvert
  refine ⟨_, _, hconvert, conjunction v k, ?_⟩
  rw [← hnext]
  exact List.lookup_cons_self

/-- The clauses give the name the value of the atom. -/
theorem eval_name {u : String} (h : (clauses u v k).eval A = true) : A u = A v := by
  rw [clauses, Cnf.eval_append, Bool.and_eq_true, Conversion.eval_conjunctionClauses] at h
  simpa [Literal.eval, Literal.pos] using h.1

/-- Where one name stands for two atoms, the atoms have the same value. -/
theorem eval_clash {u x y : String} {i j : Nat} (h : A x ≠ A y) :
    Cnf.eval A (clauses u x i ++ clauses u y j) = false := by
  refine Bool.eq_false_iff.2 fun heval => ?_
  rw [Cnf.eval_append, Bool.and_eq_true] at heval
  exact h ((eval_name heval.1).symm.trans (eval_name heval.2))

end Repetition

open Repetition (formula calls convert_calls)

theorem attemptEach_append (c : Converter) (ps qs : List (Formula × List String)) :
    (c.attemptEach (ps ++ qs)).2 = ((c.attemptEach ps).2.attemptEach qs).2 := by
  induction ps generalizing c with
  | nil => rfl
  | cons p ps ih => exact ih (c.attempt p).2

theorem isWord_letter : IsWord "x" ∧ IsWord "y" :=
  ⟨⟨by decide, by simp⟩, by decide, by simp⟩

/-- Where namespaces are not separate, some name is given by both. -/
theorem not_shareNoName (h : ¬ Separate w w') : ¬ ShareNoName w w' := by
  obtain ⟨n, ⟨i, hi⟩, j, hj⟩ := auxiliary_inter_iff.2 h
  have gives (w v : String) (k : Nat) :
      ((ofNamespace w).attemptEach (calls v 0 k ++ [(formula v k, [])])).2.Gives
        ("_" ++ w ++ toString k) := by
    obtain ⟨ws, d, hconvert, hgives⟩ := convert_calls w v k []
    rw [attemptEach_append, attemptEach, attempt, hconvert]
    exact hgives
  have readable {v : String} (hv : IsWord v) (k : Nat) :
      ∀ p ∈ calls v 0 k ++ [(formula v k, [])], p.1.Readable := by
    intro p hp
    rcases List.mem_append.1 hp with hp | hp
    · exact Repetition.readable_calls hv p hp
    · exact List.mem_singleton.1 hp ▸ Repetition.readable_formula hv
  intro hshare
  exact hshare _ _ (readable isWord_letter.1 i) (readable isWord_letter.2 j) n (hi ▸ gives w "x" i)
    (hj ▸ gives w' "y" j)

/-- Where namespaces are not separate, the clauses of some two formulas make one name equivalent to
two atoms, while the formulas are true whatever the values of these. -/
theorem not_compose (h : ¬ Separate w w') : ¬ Compose w w' := by
  obtain ⟨n, ⟨i, hi⟩, j, hj⟩ := auxiliary_inter_iff.2 h
  intro hcompose
  obtain ⟨F, ws, c, G, ws', c', hF, hG, hmodel⟩ := hcompose (calls "x" 0 i) (calls "y" 0 j)
    (Repetition.readable_calls isWord_letter.1) (Repetition.readable_calls isWord_letter.2)
    (formula "x" i) (formula "y" j) (Repetition.isNormal_formula _ _)
    (Repetition.isNormal_formula _ _) (Repetition.readable_formula isWord_letter.1)
    (Repetition.readable_formula isWord_letter.2) [] []
  obtain ⟨_, _, hF', -⟩ := convert_calls w "x" i []
  obtain ⟨_, _, hG', -⟩ := convert_calls w' "y" j []
  rw [← hi] at hF'
  rw [← hj] at hG'
  cases hF.symm.trans hF'
  cases hG.symm.trans hG'
  obtain ⟨A', hwords, heval⟩ := hmodel (fun v => v != "y") (by simp [Repetition.eval_formula])
    (by simp [Repetition.eval_formula])
  have hne : A' "x" ≠ A' "y" := by
    rw [hwords "x" isWord_letter.1, hwords "y" isWord_letter.2]
    decide
  rw [Repetition.eval_clash hne] at heval
  cases heval

/-- **What keeps converters apart.** The converters of two namespaces share no name if and only if
the namespaces are separate, and so it is with their clauses: if and only if the namespaces are
separate, every valuation that makes a formula converted by the one and a formula converted by the
other true extends to a model of the clauses of both. -/
theorem separate_exact (w w' : String) :
    (ShareNoName w w' ↔ Separate w w') ∧ (Compose w w' ↔ Separate w w') := by
  refine ⟨⟨fun h => ?_, Separate.shareNoName⟩, fun h => ?_, Separate.compose⟩
  · by_contra hsep
    exact not_shareNoName hsep h
  · by_contra hsep
    exact not_compose hsep h

/-- The eleventh name in the namespace `aux` is the first one in `aux1`. Behind ten conversions in
the namespace `aux`, two formulas, both of which are true, get clauses that make this name
equivalent to a conjunction that is true and to one that is false. -/
theorem clash_aux :
    let calls := (List.range 10).map fun k => (formula "x" k, ([] : List String))
    "aux" ≠ "aux1" ∧ (∀ p ∈ calls, p.1.Readable) ∧ (formula "x" 10).Readable ∧
      (formula "y" 0).Readable ∧
      ∃ F ws c G ws' c',
        ((ofNamespace "aux").attemptEach calls).2.convert (formula "x" 10) [] = .ok (F, ws, c) ∧
        (ofNamespace "aux1").convert (formula "y" 0) [] = .ok (G, ws', c') ∧
        c.Gives "_aux10" ∧ c'.Gives "_aux10" ∧
        ∃ A, (formula "x" 10).eval A = true ∧ (formula "y" 0).eval A = true ∧
          ∀ A', (∀ v, IsWord v → A' v = A v) → Cnf.eval A' (F ++ G) = false := by
  intro calls
  obtain ⟨ws, c, hF, hc⟩ := convert_calls "aux" "x" 10 []
  obtain ⟨ws', c', hG, hc'⟩ := convert_calls "aux1" "y" 0 []
  refine ⟨by decide, Repetition.readable_calls (s := 0) (n := 10) isWord_letter.1,
    Repetition.readable_formula isWord_letter.1, Repetition.readable_formula isWord_letter.2,
    _, ws, c, _, ws', c', hF, hG, hc, hc', fun v => v != "y", by decide, by decide,
    fun A' hwords => ?_⟩
  refine Repetition.eval_clash ?_
  rw [hwords "x" isWord_letter.1, hwords "y" isWord_letter.2]
  decide

end Converter

end JudgmentAggregation
