import JudgmentAggregation.Proofs.Cnf.Exactness
import JudgmentAggregation.Proofs.Cnf.Scheme

/-!
# Converters that are shared

A converter that is used for many formulas gives each of them the clauses of its scheme, written
with names that are the same in all the conversions (`Converter.attemptEach_spec`): a conversion
goes step by step the way that the scheme is made, and **tracks** it (`Conversion.Tracks`). So a
shared converter gives what a new one would, up to the choice of the names, and it gives the same
again whatever it has converted in the meantime (`Converter.attemptEach_exact`).

That a conversion tracks a scheme is said for all the namings that agree with the names given so
far. A naming that agrees with the names given later agrees with these too, so that what is known of
the clauses stays true while further names are given.
-/

namespace JudgmentAggregation

/-- A **naming** gives every formula a name. -/
abbrev Naming := Formula → String

/-- The variable that a letter of a scheme is written with: an atom is written as itself, any other
formula with its name. -/
def Naming.write (ν : Naming) : Formula → String
  | .atom v => v
  | f => ν f

theorem Naming.write_of_compound (ν : Naming) {f : Formula} (hf : f.Compound) :
    ν.write f = ν f := by
  cases hf <;> rfl

namespace Converter

/-- A naming **agrees** with a converter when it gives the formulas that the converter has named the
same names. -/
def Agrees (c : Converter) (ν : Naming) : Prop :=
  ∀ f n, c.nameOf? f = some n → ν f = n

/-- A formula has been named by a converter. -/
def HasNamed (c : Converter) (f : Formula) : Prop :=
  ∃ n, c.nameOf? f = some n

/-- The names that a converter has given. -/
def naming (c : Converter) : Naming := fun f =>
  (c.nameOf? f).getD ""

variable {c c' : Converter} {f g : Formula} {ν : Naming}

/-- A converter agrees with the naming that it makes. -/
theorem agrees_naming (c : Converter) : c.Agrees c.naming := fun f n h => by
  rw [naming, h, Option.getD_some]

theorem Agrees.mono (hc : c.Extends c') (h : c'.Agrees ν) : c.Agrees ν :=
  fun f n hn => h f n (hc.nameOf f n hn)

theorem HasNamed.mono (hc : c.Extends c') (h : c.HasNamed f) : c'.HasNamed f :=
  h.imp fun n hn => hc.nameOf f n hn

/-- The name of a formula that has been named is one of the converter. -/
theorem HasNamed.auxiliary (h : c.HasNamed f) (ho : c.Orderly) (hν : c.Agrees ν) :
    Auxiliary c.stem (ν f) := by
  obtain ⟨n, hn⟩ := h
  rw [hν f n hn]
  exact ho.auxiliary hn

/-- A naming that agrees with an orderly converter distinguishes the formulas it has named. -/
theorem HasNamed.eq_of_eq (ho : c.Orderly) (hν : c.Agrees ν) (hf : c.HasNamed f)
    (hg : c.HasNamed g) (h : ν f = ν g) : f = g := by
  obtain ⟨n, hn⟩ := hf
  obtain ⟨m, hm⟩ := hg
  rw [hν f n hn, hν g m hm] at h
  exact ho.eq_of_nameOf hn (h ▸ hm)

end Converter

/-! ### Conversions and schemes -/

namespace Conversion

open Converter (Agrees HasNamed)

/-- A conversion **tracks** a scheme when what it has defined and stated is the scheme, written with
its names. -/
structure Tracks (s : Conversion) (o : Scheme) : Prop where
  orderly : s.converter.Orderly
  named : ∀ f ∈ o.defined, s.converter.HasNamed f
  defined : ∀ ν, s.converter.Agrees ν → s.defined = o.defined.map ν
  clauses : ∀ ν : Naming, s.converter.Agrees ν → s.clauses.reverse = o.clauses.rename ν.write

variable {s s' : Conversion} {o o' : Scheme} {f : Formula} {fs : List Formula} {c : Converter}

theorem Tracks.start (h : c.Orderly) : Tracks ⟨c, [], []⟩ ⟨[], []⟩ :=
  ⟨h, by simp, fun _ _ => rfl, fun _ _ => rfl⟩

/-- More names change nothing in what is defined and stated. -/
theorem Tracks.reuse (h : s.Tracks o) (f : Formula) : (s.reuse f).Tracks o := by
  obtain ⟨ho, hext, -⟩ := Converter.name_spec h.orderly f
  exact ⟨ho, fun g hg => (h.named g hg).mono hext, fun ν hν => h.defined ν (hν.mono hext),
    fun ν hν => h.clauses ν (hν.mono hext)⟩

/-- More clauses on both sides, the same when they are written with the names. -/
theorem Tracks.emitAll (h : s.Tracks o) {F : Cnf String} {G : Cnf Formula}
    (hF : ∀ ν : Naming, s.converter.Agrees ν → F = G.rename ν.write) :
    (s.emitAll F).Tracks (o.state G) where
  orderly := h.orderly
  named := h.named
  defined := h.defined
  clauses ν hν := by
    rw [Conversion.emitAll, Scheme.state, List.reverse_append, List.reverse_reverse,
      h.clauses ν hν, hF ν hν, Cnf.rename_append]

/-- A name is defined in a conversion when its formula is in the scheme. -/
theorem Tracks.name_mem_defined (h : s.Tracks o) (f : Formula) :
    (s.converter.name f).1 ∈ s.defined ↔ f ∈ o.defined := by
  obtain ⟨ho, hext, hname⟩ := Converter.name_spec h.orderly f
  have hν := Converter.agrees_naming (s.converter.name f).2
  rw [← hν f _ hname, h.defined _ (hν.mono hext), List.mem_map]
  refine ⟨?_, fun hf => ⟨f, hf, rfl⟩⟩
  rintro ⟨g, hg, hgf⟩
  exact HasNamed.eq_of_eq ho hν ((h.named g hg).mono hext) ⟨_, hname⟩ hgf ▸ hg

/-- Marking a formula on both sides keeps track. -/
theorem Tracks.mark (h : s.Tracks o) (f : Formula) : (s.mark f).Tracks (o.mark f) := by
  obtain ⟨ho, hext, hname⟩ := Converter.name_spec h.orderly f
  have hs := h.reuse f
  refine ⟨ho, List.forall_mem_cons.2 ⟨⟨_, hname⟩, hs.named⟩, fun ν hν => ?_, hs.clauses⟩
  rw [Scheme.mark, List.map_cons, ← hs.defined ν hν, hν f _ hname]
  rfl

/-- The literals of some formulas, written with names. -/
def write (ν : Naming) (fs : List Formula) : Clause String :=
  Clause.rename ν.write (fs.map (·.literal))

theorem write_append (ν : Naming) (fs gs : List Formula) :
    write ν (fs ++ gs) = write ν fs ++ write ν gs := by
  rw [write, List.map_append, Clause.rename_append]
  rfl

/-- The definition of a formula, written in a naming, is the one on its name. -/
theorem rename_definition (ν : Naming) (hf : f.Compound) :
    (Scheme.definition f).rename ν.write = definition f (ν f) (write ν (operands f)) := by
  cases hf <;>
    simp [Scheme.definition, definition, disjunctionClauses, conjunctionClauses, operands, write,
      Cnf.rename, Clause.rename, Naming.write, Function.comp_def]

/-! ### The functions of a conversion -/

/-- What a function of a conversion does that returns the literals of some formulas: it keeps the
names, and the conversion it leads to tracks a scheme. -/
structure Yields (s : Conversion) (fs : List Formula) (ls : Clause String) (s' : Conversion)
    (o' : Scheme) : Prop where
  names : s.converter.Extends s'.converter
  tracks : s'.Tracks o'
  literals : ∀ ν, s'.converter.Agrees ν → ls = write ν fs

variable {s₁ s₂ : Conversion} {o₁ o₂ : Scheme} {gs : List Formula} {ls ms : Clause String}
  {l : Literal String}

theorem Yields.append (h : s.Yields fs ls s₁ o₁) (h' : s₁.Yields gs ms s₂ o₂) :
    s.Yields (fs ++ gs) (ls ++ ms) s₂ o₂ where
  names := h.names.trans h'.names
  tracks := h'.tracks
  literals ν hν := by
    rw [write_append, ← h.literals ν (hν.mono h'.names), ← h'.literals ν hν]

/-- The literals of formulas, each of which has one. -/
theorem literals_yields (h : s.Tracks o)
    (hfs : ∀ f ∈ fs, ∀ s o, Tracks s o →
      ∃ l s', literal f s = .ok (l, s') ∧ s.Yields [f] [l] s' (o.define f)) :
    ∃ ls s', literals fs s = .ok (ls, s') ∧ s.Yields fs ls s' (o.defineAll fs) := by
  induction fs generalizing s o with
  | nil => exact ⟨[], s, rfl, .refl _, h, fun _ _ => rfl⟩
  | cons f fs ih =>
    obtain ⟨l, s₁, hl, hyields⟩ := hfs f List.mem_cons_self s o h
    obtain ⟨ls, s₂, hls, hrest⟩ :=
      ih hyields.tracks fun g hg => hfs g (List.mem_cons_of_mem f hg)
    refine ⟨l :: ls, s₂, ?_, hyields.append hrest⟩
    simp only [literals, hl, hls, bind, Except.bind]
    rfl

/-- The conjunctions and the disjunctions go the same way as their definitions in a scheme. -/
theorem compound_yields (h : s.Tracks o) (hf : f.Compound)
    (hops : ∀ g ∈ operands f, ∀ s o, Tracks s o →
      ∃ l s', literal g s = .ok (l, s') ∧ s.Yields [g] [l] s' (o.define g)) :
    ∃ l s', literal f s = .ok (l, s') ∧ s.Yields [f] [l] s' (o.define f) := by
  obtain ⟨-, hext, hname⟩ := Converter.name_spec h.orderly f
  have hwrite {ν : Naming} (hν : ν f = (s.converter.name f).1) :
      [.pos (s.converter.name f).1] = write ν [f] := by
    cases hf <;> simp [write, Clause.rename, Formula.literal, Naming.write, hν]
  rw [literal_of_compound hf, Scheme.define_of_compound hf]
  by_cases hd : (s.converter.name f).1 ∈ s.defined
  · rw [if_pos hd, if_pos ((h.name_mem_defined f).1 hd)]
    exact ⟨_, _, rfl, hext, h.reuse f, fun ν hν => hwrite (hν f _ hname)⟩
  · obtain ⟨ls, s', hls, hyields⟩ := literals_yields (h.mark f) hops
    rw [if_neg hd, if_neg (mt (h.name_mem_defined f).2 hd), hls]
    refine ⟨_, _, rfl, hext.trans hyields.names, hyields.tracks.emitAll fun ν hν => ?_,
      fun ν hν => hwrite (hν.mono hyields.names f _ hname)⟩
    rw [rename_definition ν hf, hyields.literals ν hν, hν.mono hyields.names f _ hname]

/-- A formula in negation normal form has a literal. -/
theorem literal_yields (h : s.Tracks o) (hnormal : f.isNormal = true) :
    ∃ l s', literal f s = .ok (l, s') ∧ s.Yields [f] [l] s' (o.define f) := by
  induction f generalizing s o with
  | atom v => exact ⟨.pos v, s, rfl, .refl _, h, fun _ _ => rfl⟩
  | not f =>
    obtain ⟨v, rfl⟩ := Formula.isNormal_not.1 hnormal
    exact ⟨.neg v, s, rfl, .refl _, h, fun _ _ => rfl⟩
  | and fs ih =>
    exact compound_yields h (.and fs) fun g hg s o hs =>
      ih g hg hs (Formula.isNormal_and.1 hnormal g hg)
  | or fs ih =>
    exact compound_yields h (.or fs) fun g hg s o hs =>
      ih g hg hs (Formula.isNormal_or.1 hnormal g hg)
  | implies f g => simp at hnormal

/-- If each operand of a disjunction yields its literals, the disjunction does. -/
theorem disjunctsAll_yields (h : s.Tracks o)
    (hfs : ∀ f ∈ fs, ∀ s o, Tracks s o → ∃ ls s', disjuncts f s = .ok (ls, s') ∧
      s.Yields f.disjuncts ls s' (o.defineAll f.disjuncts)) :
    ∃ ls s', disjunctsAll fs s = .ok (ls, s') ∧ s.Yields (fs.flatMap Formula.disjuncts) ls s'
      (o.defineAll (fs.flatMap Formula.disjuncts)) := by
  induction fs generalizing s o with
  | nil => exact ⟨[], s, rfl, .refl _, h, fun _ _ => rfl⟩
  | cons f fs ih =>
    obtain ⟨ls, s₁, hls, hyields⟩ := hfs f List.mem_cons_self s o h
    obtain ⟨ms, s₂, hms, hrest⟩ :=
      ih hyields.tracks fun g hg => hfs g (List.mem_cons_of_mem f hg)
    refine ⟨ls ++ ms, s₂, ?_, ?_⟩
    · simp only [disjunctsAll, hls, hms, bind, Except.bind]
      rfl
    · rw [List.flatMap_cons, Scheme.defineAll_append]
      exact hyields.append hrest

/-- A formula in negation normal form has a clause. -/
theorem disjuncts_yields (h : s.Tracks o) (hnormal : f.isNormal = true) :
    ∃ ls s', disjuncts f s = .ok (ls, s') ∧
      s.Yields f.disjuncts ls s' (o.defineAll f.disjuncts) := by
  induction f generalizing s o with
  | or fs ih =>
    rw [disjuncts, Formula.disjuncts_or]
    exact disjunctsAll_yields h fun f hf s o hs =>
      ih f hf hs (Formula.isNormal_or.1 hnormal f hf)
  | atom v | not f | and fs | implies f g =>
    obtain ⟨l, s', hl, hyields⟩ := literal_yields h hnormal
    refine ⟨[l], s', ?_, hyields⟩
    simp only [disjuncts, hl, bind, Except.bind]
    rfl

/-- If each operand of a conjunction keeps track, the conjunction does. -/
theorem conjunctsAll_tracks (h : s.Tracks o)
    (hfs : ∀ f ∈ fs, ∀ s o, Tracks s o → ∃ s', conjuncts f s = .ok s' ∧
      s.converter.Extends s'.converter ∧ s'.Tracks (o.assertAll f.conjuncts)) :
    ∃ s', conjunctsAll fs s = .ok s' ∧ s.converter.Extends s'.converter ∧
      s'.Tracks (o.assertAll (fs.flatMap Formula.conjuncts)) := by
  induction fs generalizing s o with
  | nil => exact ⟨s, rfl, .refl _, h⟩
  | cons f fs ih =>
    obtain ⟨s₁, hs₁, hext₁, htracks₁⟩ := hfs f List.mem_cons_self s o h
    obtain ⟨s₂, hs₂, hext₂, htracks₂⟩ := ih htracks₁ fun g hg => hfs g (List.mem_cons_of_mem f hg)
    rw [List.flatMap_cons, Scheme.assertAll_append]
    refine ⟨s₂, ?_, hext₁.trans hext₂, htracks₂⟩
    simp only [conjunctsAll, hs₁, hs₂, bind, Except.bind]

/-- A formula in negation normal form has clauses. -/
theorem conjuncts_tracks (h : s.Tracks o) (hnormal : f.isNormal = true) :
    ∃ s', conjuncts f s = .ok s' ∧ s.converter.Extends s'.converter ∧
      s'.Tracks (o.assertAll f.conjuncts) := by
  induction f generalizing s o with
  | and fs ih =>
    rw [conjuncts, Formula.conjuncts_and]
    exact conjunctsAll_tracks h fun f hf s o hs =>
      ih f hf hs (Formula.isNormal_and.1 hnormal f hf)
  | atom v | not f | or fs | implies f g =>
    obtain ⟨ls, s', hls, hyields⟩ := disjuncts_yields h hnormal
    refine ⟨s'.emitAll [ls], ?_, hyields.names, hyields.tracks.emitAll fun ν hν => ?_⟩
    · simp only [conjuncts, hls, bind, Except.bind]
      rfl
    · rw [hyields.literals ν hν]
      rfl

end Conversion

/-! ### Converters in a sequence of attempts -/

/-- What a converter with these names answers to a formula with some given variables. -/
def Naming.answer (ν : Naming) (p : Formula × List String) : Result (Cnf String × List String) :=
  if p.1.isNormal then
    .ok (p.1.scheme.clauses.rename ν.write, SortedList.insertAll (p.1.scheme.defined.map ν) p.2)
  else .error (.ofCause (.notNormal p.1))

namespace Converter

variable {c c' c'' : Converter} {f : Formula} {ν : Naming} {calls : List (Formula × List String)}

/-- A conversion gives the scheme of the formula, written with the names. -/
theorem convert_eq (h : c.Orderly) (hnormal : f.isNormal = true) (vars : List String) :
    ∃ F ws c', c.convert f vars = .ok (F, ws, c') ∧ c.Extends c' ∧ c'.Orderly ∧
      (∀ g ∈ f.scheme.defined, c'.HasNamed g) ∧
      ∀ ν : Naming, c'.Agrees ν → F = f.scheme.clauses.rename ν.write ∧
        ws = SortedList.insertAll (f.scheme.defined.map ν) vars := by
  obtain ⟨s, hs, hext, htracks⟩ := Conversion.conjuncts_tracks (.start h) hnormal
  refine ⟨s.clauses.reverse, SortedList.insertAll s.defined vars, s.converter, ?_, hext,
    htracks.orderly, htracks.named, fun ν hν => ⟨htracks.clauses ν hν, ?_⟩⟩
  · simp [convert, hnormal, hs, bind, Except.bind, pure, Except.pure]
  · rw [htracks.defined ν hν]
    rfl

/-- A converter that has all the names of a conversion repeats it. -/
theorem convert_again {F : Cnf String} {vars ws : List String} (h : c.Orderly)
    (hnormal : f.isNormal = true) (hc : c.convert f vars = .ok (F, ws, c')) (hext : c'.Extends c'')
    (h' : c''.Orderly) : ∃ d, c''.convert f vars = .ok (F, ws, d) := by
  obtain ⟨F₁, ws₁, c₁, hF₁, -, -, -, heq₁⟩ := convert_eq h hnormal vars
  obtain ⟨F₂, ws₂, c₂, hF₂, hext₂, -, -, heq₂⟩ := convert_eq h' hnormal vars
  rw [hc] at hF₁
  obtain ⟨rfl, rfl, rfl⟩ : F = F₁ ∧ ws = ws₁ ∧ c' = c₁ := by simpa using hF₁
  have hν := agrees_naming c₂
  obtain ⟨rfl, rfl⟩ := heq₁ c₂.naming (hν.mono (hext.trans hext₂))
  obtain ⟨rfl, rfl⟩ := heq₂ c₂.naming hν
  exact ⟨c₂, hF₂⟩

/-- An attempt to convert a formula, with some given variables: the answer and the converter behind
it, which is the same where the attempt fails. -/
def attempt (c : Converter) (p : Formula × List String) :
    Result (Cnf String × List String) × Converter :=
  match c.convert p.1 p.2 with
  | .ok (F, ws, c') => (.ok (F, ws), c')
  | .error e => (.error e, c)

/-- Attempts in turn. -/
def attemptEach (c : Converter) :
    List (Formula × List String) → List (Result (Cnf String × List String)) × Converter
  | [] => ([], c)
  | p :: calls =>
    let (out, c) := c.attempt p
    let (outs, c) := c.attemptEach calls
    (out :: outs, c)

/-- An attempt keeps the names and is answered with them. -/
theorem attempt_spec (h : c.Orderly) (p : Formula × List String) :
    c.Extends (c.attempt p).2 ∧ (c.attempt p).2.Orderly ∧
      (p.1.isNormal = true → ∀ g ∈ p.1.scheme.defined, (c.attempt p).2.HasNamed g) ∧
      ∀ ν, (c.attempt p).2.Agrees ν → (c.attempt p).1 = ν.answer p := by
  cases hnormal : p.1.isNormal with
  | true =>
    obtain ⟨F, ws, c', hF, hext, ho, hnamed, heq⟩ := convert_eq h hnormal p.2
    rw [attempt, hF]
    refine ⟨hext, ho, fun _ => hnamed, fun ν hν => ?_⟩
    obtain ⟨rfl, rfl⟩ := heq ν hν
    rw [Naming.answer, if_pos hnormal]
  | false =>
    have hfail : c.attempt p = (.error (.ofCause (.notNormal p.1)), c) := by
      simp [attempt, convert, hnormal]
    rw [hfail]
    exact ⟨.refl c, h, by simp, fun ν _ => by simp [Naming.answer, hnormal]⟩

/-- Attempts in turn keep the names and are answered with the names that there are in the end. -/
theorem attemptEach_spec (h : c.Orderly) (calls : List (Formula × List String)) :
    c.Extends (c.attemptEach calls).2 ∧ (c.attemptEach calls).2.Orderly ∧
      (∀ p ∈ calls, p.1.isNormal = true →
        ∀ g ∈ p.1.scheme.defined, (c.attemptEach calls).2.HasNamed g) ∧
      ∀ ν, (c.attemptEach calls).2.Agrees ν → (c.attemptEach calls).1 = calls.map ν.answer := by
  induction calls generalizing c with
  | nil => exact ⟨.refl c, h, by simp, fun _ _ => rfl⟩
  | cons p calls ih =>
    obtain ⟨hext₁, ho₁, hnamed₁, hanswer₁⟩ := attempt_spec h p
    obtain ⟨hext, ho, hnamed, hanswer⟩ := ih ho₁
    refine ⟨hext₁.trans hext, ho, List.forall_mem_cons.2 ⟨fun hp g hg => ?_, hnamed⟩,
      fun ν hν => ?_⟩
    · exact (hnamed₁ hp g hg).mono hext
    · rw [List.map_cons, ← hanswer₁ ν (hν.mono hext), ← hanswer ν hν]
      rfl

end Converter

/-! ### Renaming auxiliary variables -/

open Converter (Auxiliary Plain)

/-- A naming **distinguishes** some formulas when their names are auxiliary variables, and the same
exactly for the same formulas. -/
structure Naming.Distinguishes (ν : Naming) (stem : String) (P : Formula → Prop) : Prop where
  auxiliary : ∀ f, P f → Auxiliary stem (ν f)
  eq_iff : ∀ f g, P f → P g → (ν f = ν g ↔ f = g)

/-- A map of variables **renames** the auxiliary variables of a CNF formula when they stay auxiliary
and any other variable stays what it is, and no two variables are made one. -/
structure Cnf.Renames (F : Cnf String) (stem : String) (ρ : String → String) : Prop where
  injOn : ∀ v ∈ F.vars, ∀ w ∈ F.vars, ρ v = ρ w → v = w
  auxiliary : ∀ v ∈ F.vars, Auxiliary stem v → Auxiliary stem (ρ v)
  other : ∀ v, ¬ Auxiliary stem v → ρ v = v

namespace Naming

/-- The map of variables that exchanges the names of some formulas for those of another naming. -/
def exchange (fs : List Formula) (ν ν' : Naming) (v : String) : String :=
  match fs.find? fun f => ν f == v with
  | some f => ν' f
  | none => v

variable {ν ν' : Naming} {stem v : String} {f g x y : Formula} {fs : List Formula} {o : Scheme}

/-- A name is exchanged for the one of the same formula. -/
theorem exchange_name (hν : ν.Distinguishes stem (· ∈ fs)) (hf : f ∈ fs) :
    exchange fs ν ν' (ν f) = ν' f := by
  rw [exchange]
  cases hfind : fs.find? fun g => ν g == ν f with
  | none => simpa using List.find?_eq_none.1 hfind f hf
  | some g =>
    have hg : ν g = ν f := by simpa using List.find?_some hfind
    exact congrArg ν' ((hν.eq_iff g f (List.mem_of_find?_eq_some hfind) hf).1 hg)

/-- What is not a name is not exchanged. -/
theorem exchange_of_not_auxiliary (hν : ν.Distinguishes stem (· ∈ fs)) (hv : ¬ Auxiliary stem v) :
    exchange fs ν ν' v = v := by
  rw [exchange]
  cases hfind : fs.find? fun f => ν f == v with
  | none => rfl
  | some f =>
    have hf : ν f = v := by simpa using List.find?_some hfind
    exact (hv (hf ▸ hν.auxiliary f (List.mem_of_find?_eq_some hfind))).elim

/-- A formula that a scheme defines is written as its name. -/
theorem write_of_mem_defined (ho : o.Over f) (hx : x ∈ o.defined) : ν.write x = ν x :=
  ν.write_of_compound (ho.defined x hx).1

/-- Different letters are written with different variables. -/
theorem Distinguishes.eq_of_write (hν : ν.Distinguishes stem (· ∈ o.defined)) (ho : o.Over f)
    (hplain : Plain stem f) (hx : o.Letter f x) (hy : o.Letter f y)
    (h : ν.write x = ν.write y) : x = y := by
  -- The name of a compound formula is auxiliary, an atom is not.
  have mixed {x v} (hx : x ∈ o.defined) (hv : v ∈ f.vars) (h : ν.write x = v) : False := by
    rw [write_of_mem_defined ho hx] at h
    exact hplain v hv (h ▸ hν.auxiliary x hx)
  rcases hx with hx | ⟨v, hv, rfl⟩ <;> rcases hy with hy | ⟨w, hw, rfl⟩
  · rw [write_of_mem_defined ho hx, write_of_mem_defined ho hy] at h
    exact (hν.eq_iff x y hx hy).1 h
  · exact (mixed hx hw h).elim
  · exact (mixed hy hv h.symm).elim
  · exact congrArg Formula.atom h

/-- The exchange of names turns what is written with the one naming into what is written with the
other. -/
theorem exchange_write (hν : ν.Distinguishes stem (· ∈ o.defined)) (ho : o.Over f)
    (hplain : Plain stem f) (hx : o.Letter f x) :
    exchange o.defined ν ν' (ν.write x) = ν'.write x := by
  rcases hx with hx | ⟨v, hv, rfl⟩
  · rw [write_of_mem_defined ho hx, write_of_mem_defined ho hx, exchange_name hν hx]
  · exact exchange_of_not_auxiliary hν (hplain v hv)

/-- Two namings that distinguish the formulas of a scheme give the same clauses up to a renaming of
the auxiliary variables. -/
theorem Distinguishes.exists_renames (hν : ν.Distinguishes stem (· ∈ o.defined))
    (hν' : ν'.Distinguishes stem (· ∈ o.defined)) (ho : o.Over f) (hplain : Plain stem f) :
    ∃ ρ, (o.clauses.rename ν.write).Renames stem ρ ∧
      o.clauses.rename ν'.write = (o.clauses.rename ν.write).rename ρ := by
  have exists_letter {v} (hv : v ∈ (o.clauses.rename ν.write).vars) :
      ∃ x, o.Letter f x ∧ ν.write x = v := by
    obtain ⟨c, hc, l, hl, hv⟩ := Cnf.mem_vars_rename.1 hv
    exact ⟨l.var, ho.letter c hc l hl, hv⟩
  refine ⟨exchange o.defined ν ν', ⟨fun v hv w hw h => ?_, fun v hv haux => ?_, fun v hv => ?_⟩, ?_⟩
  · obtain ⟨x, hx, rfl⟩ := exists_letter hv
    obtain ⟨y, hy, rfl⟩ := exists_letter hw
    rw [exchange_write hν ho hplain hx, exchange_write hν ho hplain hy] at h
    rw [hν'.eq_of_write ho hplain hx hy h]
  · obtain ⟨x, hx, rfl⟩ := exists_letter hv
    rw [exchange_write hν ho hplain hx]
    rcases hx with hx | ⟨v, hv, rfl⟩
    · rw [write_of_mem_defined ho hx]
      exact hν'.auxiliary x hx
    · exact haux
  · exact exchange_of_not_auxiliary hν hv
  · exact (Cnf.rename_rename fun c hc l hl =>
      exchange_write hν ho hplain (ho.letter c hc l hl)).symm

end Naming

/-! ### Shared converters -/

namespace Converter

variable {c c' : Converter} {f : Formula} {ν : Naming} {calls : List (Formula × List String)}

/-- A formula **occurs** in the answers to some attempts when it is a letter, but not an atom, of
the scheme of a formula that is converted. -/
def Occurs (calls : List (Formula × List String)) (x : Formula) : Prop :=
  ∃ p ∈ calls, p.1.isNormal = true ∧ (∀ v, x ≠ .atom v) ∧
    ∃ c ∈ p.1.scheme.clauses, ∃ l ∈ c, l.var = x

/-- What occurs in some calls is defined by the scheme of one of them. -/
theorem Occurs.mem_defined {x : Formula} (h : Occurs calls x) :
    ∃ p ∈ calls, p.1.isNormal = true ∧ x ∈ p.1.scheme.defined := by
  obtain ⟨p, hp, hnormal, hx, c, hc, l, hl, rfl⟩ := h
  refine ⟨p, hp, hnormal, ?_⟩
  rcases (Formula.scheme_over hnormal).letter c hc l hl with hmem | ⟨v, -, hv⟩
  · exact hmem
  · exact (hx v hv).elim

/-- What occurs is a compound formula within a formula that is converted. -/
theorem Occurs.within {x : Formula} (h : Occurs calls x) :
    x.Compound ∧ ∃ p ∈ calls, p.1.Within x := by
  obtain ⟨p, hp, hnormal, hx⟩ := h.mem_defined
  obtain ⟨hcompound, hwithin⟩ := (Formula.scheme_over hnormal).defined x hx
  exact ⟨hcompound, p, hp, hwithin⟩

/-- A naming that agrees with a converter tells the formulas apart that have been named. -/
theorem Agrees.distinguishes (hν : c.Agrees ν) (h : c.Orderly) {P : Formula → Prop}
    (hP : ∀ f, P f → c.HasNamed f) : ν.Distinguishes c.stem P where
  auxiliary f hf := (hP f hf).auxiliary h hν
  eq_iff f g hf hg := ⟨(hP f hf).eq_of_eq h hν (hP g hg), congrArg ν⟩

/-- Two converters of one stem give a formula the same clauses up to a renaming of the auxiliary
variables. -/
theorem convert_renames (h : c.Orderly) (h' : c'.Orderly) (hstem : c'.stem = c.stem)
    (hnormal : f.isNormal = true) (hplain : Plain c.stem f) (vars : List String) :
    ∃ F ws d F' ws' d' ρ, c.convert f vars = .ok (F, ws, d) ∧
      c'.convert f vars = .ok (F', ws', d') ∧ F.Renames c.stem ρ ∧ F' = F.rename ρ := by
  obtain ⟨F, ws, d, hF, hext, ho, hnamed, heq⟩ := convert_eq h hnormal vars
  obtain ⟨F', ws', d', hF', hext', ho', hnamed', heq'⟩ := convert_eq h' hnormal vars
  have hν := (agrees_naming d).distinguishes ho hnamed
  have hν' := (agrees_naming d').distinguishes ho' hnamed'
  rw [hext.stem_eq] at hν
  rw [hext'.stem_eq, hstem] at hν'
  obtain ⟨ρ, hρ, hrename⟩ := hν.exists_renames hν' (Formula.scheme_over hnormal) hplain
  rw [← (heq _ (agrees_naming d)).1] at hρ hrename
  rw [← (heq' _ (agrees_naming d')).1] at hrename
  exact ⟨F, ws, d, F', ws', d', ρ, hF, hF', hρ, hrename⟩

/-- **A shared converter behaves like new ones.** A converter is used for any attempts in turn, some
of which may fail. All the answers are those of one naming, under which two occurrences of auxiliary
variables are the same exactly if they stand for the same compound formula. Whatever has been
attempted, a formula in negation normal form without auxiliary variables has the clauses that a new
converter gives it, up to a renaming of the auxiliary variables; and whatever is attempted next, it
has the same clauses and variables again. -/
theorem attemptEach_exact (word : String) (calls later : List (Formula × List String))
    (hnormal : f.isNormal = true) (hplain : Plain ("_" ++ word) f) (vars : List String) :
    (∃ ν : Naming, ((ofNamespace word).attemptEach calls).1 = calls.map ν.answer ∧
      ν.Distinguishes ("_" ++ word) (Occurs calls)) ∧
    (∀ x, Occurs calls x → x.Compound ∧ ∃ p ∈ calls, p.1.Within x) ∧
    ∃ F ws c, ((ofNamespace word).attemptEach calls).2.convert f vars = .ok (F, ws, c) ∧
      (∃ F₀ ws₀ c₀ ρ, (ofNamespace word).convert f vars = .ok (F₀, ws₀, c₀) ∧
        F₀.Renames ("_" ++ word) ρ ∧ F = F₀.rename ρ) ∧
      ∃ c', (c.attemptEach later).2.convert f vars = .ok (F, ws, c') := by
  obtain ⟨hext, ho, hnamed, hanswer⟩ := attemptEach_spec (orderly_ofNamespace word) calls
  have hν := agrees_naming ((ofNamespace word).attemptEach calls).2
  refine ⟨⟨_, hanswer _ hν, ?_⟩, fun x hx => hx.within, ?_⟩
  · have hdistinguishes := hν.distinguishes ho fun x (hx : Occurs calls x) => by
      obtain ⟨p, hp, hp', hx⟩ := hx.mem_defined
      exact hnamed p hp hp' x hx
    rwa [hext.stem_eq] at hdistinguishes
  · obtain ⟨F₀, ws₀, c₀, F, ws, c, ρ, hF₀, hF, hρ, hrename⟩ :=
      convert_renames (orderly_ofNamespace word) ho hext.stem_eq hnormal hplain vars
    refine ⟨F, ws, c, hF, ⟨F₀, ws₀, c₀, ρ, hF₀, hρ, hrename⟩, ?_⟩
    obtain ⟨hext', ho', -, -⟩ := attemptEach_spec (orderly_of_convert ho hF) later
    exact convert_again ho hnormal hF hext' ho'

/-- Behind a conversion that has named a part of the formula and an attempt that fails, the names
are others than those of a new converter. -/
theorem attemptEach_exact_shared :
    let calls : List (Formula × List String) :=
      [(.or [.and [.atom "a", .atom "b"], .atom "c"], []), (.not (.not (.atom "a")), [])]
    let f : Formula :=
      .or [.and [.or [.atom "a", .atom "b"], .atom "c"], .and [.atom "a", .atom "b"]]
    let F : String → String → String → Cnf String := fun x y z =>
      [[.pos y, .neg "a"], [.pos y, .neg "b"], [.neg y, .pos "a", .pos "b"],
        [.neg x, .pos y], [.neg x, .pos "c"], [.pos x, .neg y, .neg "c"],
        [.neg z, .pos "a"], [.neg z, .pos "b"], [.pos z, .neg "a", .neg "b"],
        [.pos x, .pos z]]
    ∃ c c₀ c' ρ, standard.convert f f.vars =
        .ok (F "_aux0" "_aux1" "_aux2", ["_aux0", "_aux1", "_aux2", "a", "b", "c"], c₀) ∧
      (standard.attemptEach calls).2.convert f f.vars =
        .ok (F "_aux1" "_aux2" "_aux0", ["_aux0", "_aux1", "_aux2", "a", "b", "c"], c) ∧
      F "_aux1" "_aux2" "_aux0" = (F "_aux0" "_aux1" "_aux2").rename ρ ∧
      (c.attemptEach calls).2.convert f f.vars =
        .ok (F "_aux1" "_aux2" "_aux0", ["_aux0", "_aux1", "_aux2", "a", "b", "c"], c') := by
  intro calls f F
  have hplain : Plain ("_" ++ "aux") f := by
    intro v hv
    refine not_auxiliary ?_
    have : v = "a" ∨ v = "b" ∨ v = "c" := by
      simp [f] at hv
      tauto
    rcases this with rfl | rfl | rfl <;> decide
  have hcalls : (standard.attemptEach calls).2 =
      ⟨"_aux", [(.and [.atom "a", .atom "b"], "_aux0")]⟩ := by rfl
  obtain ⟨c₀, hc₀⟩ : ∃ c₀, standard.convert f f.vars =
      .ok (F "_aux0" "_aux1" "_aux2", ["_aux0", "_aux1", "_aux2", "a", "b", "c"], c₀) := ⟨_, rfl⟩
  obtain ⟨c, hc⟩ : ∃ c, (standard.attemptEach calls).2.convert f f.vars =
      .ok (F "_aux1" "_aux2" "_aux0", ["_aux0", "_aux1", "_aux2", "a", "b", "c"], c) := by
    rw [hcalls]
    exact ⟨_, rfl⟩
  obtain ⟨-, -, G, ws, d, hG, ⟨G₀, ws₀, d₀, ρ, hG₀, -, hrename⟩, c', hG'⟩ :=
    attemptEach_exact "aux" calls calls (f := f) (by decide) hplain f.vars
  cases hc.symm.trans hG
  cases hc₀.symm.trans hG₀
  exact ⟨c, c₀, c', ρ, hc₀, hc, hrename, hG'⟩

end Converter

end JudgmentAggregation
