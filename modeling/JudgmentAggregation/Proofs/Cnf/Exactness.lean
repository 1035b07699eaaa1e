import JudgmentAggregation.Proofs.Cnf.Conversion

/-!
# Conversion is exact

The clauses of a formula have the same models as the formula, as far as the variables go that are
not auxiliary, and a model of the formula leaves no choice for the auxiliary variables
(`Converter.Exact`). A converter that has been in use before, and is used for several formulas in
turn, still gives clauses that are exact together (`Converter.convertEach_exact`): the names that it
remembers mean the same in every conversion.

Soundness is an induction over the formula that uses the defining clauses; completeness needs none,
since `Converter.extend` says at once which value each name gets.
-/

namespace JudgmentAggregation

namespace Converter

/-- None of the variables of a formula is auxiliary. -/
def Plain (stem : String) (f : Formula) : Prop :=
  ∀ v ∈ f.vars, ¬ Auxiliary stem v

/-- Two valuations agree on the variables that are not auxiliary. -/
def AgreeOff (stem : String) (A A' : Valuation String) : Prop :=
  ∀ v, ¬ Auxiliary stem v → A' v = A v

/-- The operands of a plain formula are plain. -/
theorem inherited_plain (stem : String) : Conversion.Inherited (Plain stem) :=
  fun _ hf _ hg v hv => hf v (Conversion.mem_vars_of_mem_operands hg hv)

variable {c c' c'' : Converter} {f : Formula} {A A' : Valuation String} {stem v : String}

/-- The extension of a valuation to the names agrees with it on all other variables. -/
theorem agreeOff_extend (h : c.Orderly) (A : Valuation String) :
    AgreeOff c.stem A (c.extend A) :=
  fun _ hv => extend_of_not_auxiliary h hv A

end Converter

namespace Conversion

open Converter (Plain AgreeOff)

variable {s s' : Conversion} {P : Formula → Prop} {f : Formula} {l : Literal String} {n v : String}
  {F : Cnf String} {A A' : Valuation String} {c' : Converter}

/-- Every name defined in a conversion has its definition among the clauses. -/
def Closed (P : Formula → Prop) (s : Conversion) : Prop :=
  ∀ n ∈ s.defined, ∃ f F, P f ∧ s.Defines f n F ∧ ∀ c ∈ F, c ∈ s.clauses

/-! ### Completeness -/

/-- Under the extension of a valuation, literals have the values of their formulas. -/
theorem reads_extend (h : c'.Orderly) (hc : s.converter.Extends c') (A : Valuation String) :
    s.Reads (Plain c'.stem) A (c'.extend A) := by
  intro f l hf hl
  cases hl with
  | atom v =>
    have hv := Converter.extend_of_not_auxiliary h (hf v (by simp)) A
    simp [Literal.eval, Literal.pos, hv]
  | not v =>
    have hv := Converter.extend_of_not_auxiliary h (hf v (by simp)) A
    simp [Literal.eval, Literal.neg, hv]
  | name _ hn =>
    have hv := Converter.extend_name h (hc.nameOf _ _ hn) A
    simp [Literal.eval, Literal.pos, hv]

theorem eval_of_forall₂ {fs : List Formula} {ls : Clause String}
    (hfs : ∀ f ∈ fs, ∀ l, s.Stands f l → l.eval A' = f.eval A)
    (h : List.Forall₂ s.Stands fs ls) :
    ls.all (·.eval A') = fs.all (·.eval A) ∧ ls.any (·.eval A') = fs.any (·.eval A) := by
  induction h with
  | nil => exact ⟨rfl, rfl⟩
  | @cons f l fs ls hl _ ih =>
    have hf := hfs f List.mem_cons_self l hl
    have ih := ih fun g hg => hfs g (List.mem_cons_of_mem _ hg)
    simp [hf, ih]

/-- If the operands have their values, then a definition is true exactly if the name has the value
of its formula. -/
theorem Defines.eval_eq (h : s.Defines f n F)
    (hops : ∀ g ∈ operands f, ∀ l, s.Stands g l → l.eval A' = g.eval A) :
    F.eval A' = (A' n == f.eval A) := by
  cases h with
  | and _ hls =>
    rw [eval_conjunctionClauses, (eval_of_forall₂ hops hls).1]
    simp [Literal.eval, Literal.pos, operands]
  | or _ hls =>
    rw [eval_disjunctionClauses, (eval_of_forall₂ hops hls).2]
    simp [Literal.eval, Literal.pos, operands]

/-! ### Soundness -/

/-- A model of the clauses gives each literal the value of its formula: by induction over the
formula, since the definition of its name is about its operands. -/
theorem reads_of_eval (h : s.converter.Orderly)
    (hclosed : s.Closed (Plain s.converter.stem)) (hF : Cnf.eval A' s.clauses = true)
    (hA : AgreeOff s.converter.stem A A') : s.Reads (Plain s.converter.stem) A A' := by
  -- A defined name has the value of its formula once the operands have theirs.
  have named {f n} (hn : n ∈ s.defined) (hf : s.converter.nameOf? f = some n)
      (hops : ∀ g ∈ operands f, ∀ l, s.Stands g l → l.eval A' = g.eval A) :
      A' n = f.eval A := by
    obtain ⟨g, F, -, hg, hc⟩ := hclosed n hn
    obtain rfl := h.eq_of_nameOf hg.nameOf hf
    have hFA : F.eval A' = true :=
      List.all_eq_true.2 fun c hcF => List.all_eq_true.1 hF c (hc c hcF)
    simpa [hg.eval_eq hops] using hFA
  intro f
  induction f with
  | atom v =>
    intro l hf hl
    cases hl with
    | atom => simp [Literal.eval, Literal.pos, hA v (hf v (by simp))]
    | name hn hnf => simpa [Literal.eval, Literal.pos] using named hn hnf (by simp [operands])
  | not f =>
    intro l hf hl
    cases hl with
    | not v => simp [Literal.eval, Literal.neg, hA v (hf v (by simp))]
    | name hn hnf => simpa [Literal.eval, Literal.pos] using named hn hnf (by simp [operands])
  | and fs ih | or fs ih =>
    intro l hf hl
    have hfs := Converter.inherited_plain s.converter.stem _ hf
    cases hl with
    | name hn hnf =>
      simpa [Literal.eval, Literal.pos] using
        named hn hnf fun g hg l hl => ih g hg l (hfs g hg) hl
  | implies f g =>
    intro l hf hl
    cases hl with
    | name hn hnf => simpa [Literal.eval, Literal.pos] using named hn hnf (by simp [operands])

/-! ### A whole conversion -/

/-- A valuation that reads the definitions satisfies the clauses exactly if the formula is true. -/
theorem eval_of_reads {tops : Cnf String} {c : Converter}
    (hs : Step (Plain c.stem) tops ⟨c, [], []⟩ s) (htops : s.MeansAll (Plain c.stem) tops f)
    (hA : s.Reads (Plain c.stem) A A') : Cnf.eval A' s.clauses = f.eval A := by
  rw [← htops.eval_eq A A' hA, Bool.eq_iff_iff, Cnf.eval, Cnf.eval, List.all_eq_true,
    List.all_eq_true]
  refine ⟨fun h d hd => h d (hs.tops_mem d hd), fun h d hd => ?_⟩
  rcases hs.of_clause d hd with hd | hd | ⟨g, n, F, hg, hn, hF, hd⟩
  · cases hd
  · exact h d hd
  · have hname : A' n = g.eval A := by
      simpa [Literal.eval, Literal.pos] using hA g (.pos n) hg (.name hn hF.nameOf)
    have hFA : F.eval A' = true := by
      rw [hF.eval_eq fun k hk l hl => hA k l (Converter.inherited_plain c.stem g hg k hk) hl, hname,
        beq_self_eq_true]
    exact List.all_eq_true.1 hFA d hd

/-! ### The variables of a conversion -/

/-- The clauses for a conjunction have its literal and those of its operands. -/
theorem var_of_mem_conjunctionClauses {aux m : Literal String} {ls d : Clause String}
    (hd : d ∈ conjunctionClauses aux ls) (hm : m ∈ d) :
    m.var = aux.var ∨ ∃ l ∈ ls, m.var = l.var := by
  rcases List.mem_append.1 hd with hd | hd
  · obtain ⟨l, hl, rfl⟩ := List.mem_map.1 hd
    rcases List.mem_pair.1 hm with rfl | rfl
    · exact .inl rfl
    · exact .inr ⟨m, hl, rfl⟩
  · rw [List.mem_singleton.1 hd] at hm
    rcases List.mem_cons.1 hm with rfl | hm
    · exact .inl rfl
    · obtain ⟨l, hl, rfl⟩ := List.mem_map.1 hm
      exact .inr ⟨l, hl, rfl⟩

/-- The variables of a definition are the name and those of the literals of the operands. -/
theorem Defines.var_eq (h : s.Defines f n F) {d : Clause String} (hd : d ∈ F) (hl : l ∈ d) :
    l.var = n ∨ ∃ g ∈ operands f, ∃ m, s.Stands g m ∧ l.var = m.var := by
  have operand {ls : Clause String} (hls : List.Forall₂ s.Stands (operands f) ls) {m}
      (hm : m ∈ ls) : ∃ g ∈ operands f, ∃ m', s.Stands g m' ∧ m.var = m'.var := by
    obtain ⟨g, hg, hgm⟩ := ListFacts.exists_of_forall₂ hls hm
    exact ⟨g, hg, m, hgm, rfl⟩
  cases h with
  | and _ hls =>
    rcases var_of_mem_conjunctionClauses hd hl with hv | ⟨m, hm, hv⟩
    · exact .inl hv
    · obtain ⟨g, hg, m', hgm, hm'⟩ := operand hls hm
      exact .inr ⟨g, hg, m', hgm, hv.trans hm'⟩
  | or _ hls =>
    rcases var_of_mem_conjunctionClauses hd hl with hv | ⟨m, hm, hv⟩
    · exact .inl hv
    · obtain ⟨k, hk, rfl⟩ := List.mem_map.1 hm
      obtain ⟨g, hg, m', hgm, hm'⟩ := operand hls hk
      exact .inr ⟨g, hg, m', hgm, hv.trans hm'⟩

/-- The name of a formula occurs in its definition. -/
theorem Defines.exists_var (h : s.Defines f n F) : ∃ d ∈ F, ∃ l ∈ d, l.var = n := by
  cases h with
  | and => exact ⟨_, List.mem_append_right _ List.mem_cons_self, _, List.mem_cons_self, rfl⟩
  | or => exact ⟨_, List.mem_append_right _ List.mem_cons_self, _, List.mem_cons_self, rfl⟩

/-- A name that stands for a plain formula is defined. -/
theorem Stands.mem_defined {stem : String} (h : s.Stands f l) (hf : Plain stem f)
    (hv : Converter.Auxiliary stem l.var) : l.var ∈ s.defined := by
  cases h with
  | atom v | not v => exact (hf v (by simp) hv).elim
  | name hn => exact hn

/-- The auxiliary variables of the clauses are the names defined. -/
theorem mem_vars_iff {tops : Cnf String} {c : Converter}
    (hs : Step (Plain c.stem) tops ⟨c, [], []⟩ s) (htops : s.MeansAll (Plain c.stem) tops f)
    (hv : Converter.Auxiliary c.stem v) :
    (∃ d ∈ s.clauses, ∃ l ∈ d, l.var = v) ↔ v ∈ s.defined := by
  constructor
  · rintro ⟨d, hd, l, hl, rfl⟩
    rcases hs.of_clause d hd with hd | hd | ⟨g, n, F, hg, hn, hF, hd⟩
    · cases hd
    · obtain ⟨g, hg, hgl⟩ := htops.stands d hd l hl
      exact hgl.mem_defined hg hv
    · rcases hF.var_eq hd hl with hl | ⟨k, hk, m, hkm, hl⟩
      · exact hl ▸ hn
      · rw [hl] at hv ⊢
        exact hkm.mem_defined (Converter.inherited_plain c.stem g hg k hk) hv
  · intro hn
    rcases hs.of_defined v hn with hn | ⟨g, F, -, hF, hc⟩
    · cases hn
    · obtain ⟨d, hd, h⟩ := hF.exists_var
      exact ⟨d, hc d hd, h⟩

end Conversion

namespace Converter

/-! ### Exact conversions -/

/-- Clauses are **exact** for a formula when, for any valuation of the other variables, its
extension to the names satisfies them exactly if the formula is true, and no other extension does.
This is so for all the converters to come, since they keep the names. -/
def Exact (c : Converter) (f : Formula) (F : Cnf String) : Prop :=
  ∀ c' : Converter, c.Extends c' → c'.Orderly → ∀ A,
    F.eval (c'.extend A) = f.eval A ∧
      ∀ A', AgreeOff c.stem A A' → F.eval A' = true →
        f.eval A = true ∧ ∀ v ∈ F.vars, A' v = c'.extend A v

variable {c c' : Converter} {f : Formula} {F : Cnf String} {A : Valuation String} {v : String}

theorem mem_vars {F : Cnf String} : v ∈ F.vars ↔ ∃ d ∈ F, ∃ l ∈ d, l.var = v := by
  simp [Cnf.vars, SortedList.mem_ofList]

theorem Exact.mono (h : c.Exact f F) (hc : c.Extends c') : c'.Exact f F := by
  intro c'' hc'' ho A
  rw [hc.stem_eq]
  exact h c'' (hc.trans hc'') ho A

/-- An orderly converter gives exact clauses, and with the given variables it returns the auxiliary
variables of the clauses. -/
theorem convert_spec (h : c.Orderly) (hf : Plain c.stem f) (hnormal : f.isNormal = true)
    (vars : List String) :
    ∃ F ws c', c.convert f vars = .ok (F, ws, c') ∧ c.Extends c' ∧ c'.Orderly ∧ c'.Exact f F ∧
      ∀ v, v ∈ ws ↔ v ∈ vars ∨ Auxiliary c.stem v ∧ v ∈ F.vars := by
  obtain ⟨tops, s, hs, hstep, htops⟩ :=
    Conversion.conjuncts_spec (s := ⟨c, [], []⟩) (inherited_plain c.stem) h hf hnormal
  have hstem : s.converter.stem = c.stem := hstep.keeps.names.stem_eq
  have hvars {v} (hv : Auxiliary c.stem v) : v ∈ Cnf.vars s.clauses.reverse ↔ v ∈ s.defined := by
    rw [← Conversion.mem_vars_iff hstep htops hv, mem_vars]
    simp
  -- The conversion writes its clauses last one first, which makes no difference to their value.
  have heval (A) : Cnf.eval A s.clauses.reverse = Cnf.eval A s.clauses := List.all_reverse
  refine ⟨s.clauses.reverse, SortedList.insertAll s.defined vars, s.converter, ?_,
    hstep.keeps.names, hstep.orderly, fun c' hc ho A => ⟨?_, fun A' hA hF => ?_⟩, fun v => ?_⟩
  · simp [convert, hnormal, hs, bind, Except.bind, pure, Except.pure]
  · have hreads := Conversion.reads_extend ho hc A
    rw [hc.stem_eq, hstem] at hreads
    rw [heval, Conversion.eval_of_reads hstep htops hreads]
  · have hclosed : s.Closed (Plain s.converter.stem) := fun n hn => by
      rw [hstem]
      exact (hstep.of_defined n hn).resolve_left (by simp)
    rw [heval] at hF
    have hreads := Conversion.reads_of_eval hstep.orderly hclosed hF hA
    refine ⟨?_, fun v hv => ?_⟩
    · rw [hstem] at hreads
      rw [← Conversion.eval_of_reads hstep htops hreads, hF]
    · by_cases hvaux : Auxiliary c.stem v
      · obtain ⟨f, F, hf, hF, -⟩ := hclosed v ((hvars hvaux).1 hv)
        have := hreads f (.pos v) hf (.name ((hvars hvaux).1 hv) hF.nameOf)
        rw [extend_name ho (hc.nameOf _ _ hF.nameOf)]
        simpa [Literal.eval, Literal.pos] using this
      · rw [extend_of_not_auxiliary ho (by rwa [hc.stem_eq, hstem]), hA v (by rwa [hstem])]
  · rw [SortedList.mem_insertAll, or_comm]
    refine or_congr_right ⟨fun hv => ?_, fun h => (hvars h.1).1 h.2⟩
    obtain ⟨f, F, -, hF, -⟩ := (hstep.of_defined v hv).resolve_left (by simp)
    have hvaux := hstep.orderly.auxiliary hF.nameOf
    rw [hstem] at hvaux
    exact ⟨hvaux, (hvars hvaux).2 hv⟩

/-- A converter stays orderly by any conversion, also of a formula that has auxiliary variables. -/
theorem orderly_of_convert (h : c.Orderly) {vars ws : List String}
    (hc : c.convert f vars = .ok (F, ws, c')) : c'.Orderly := by
  rw [convert] at hc
  split at hc
  · next hnormal =>
    obtain ⟨tops, s, hs, hstep, -⟩ := Conversion.conjuncts_spec (s := ⟨c, [], []⟩)
      (P := fun _ => True) (fun _ _ _ _ => trivial) h trivial hnormal
    simp only [hs, bind, Except.bind, pure, Except.pure, Except.ok.injEq, Prod.mk.injEq] at hc
    obtain ⟨-, -, rfl⟩ := hc
    exact hstep.orderly
  · cases hc

/-! ### Converters in use -/

/-- The converters that come about by use: any conversions, of any formulas and with any variables
given. A conversion that fails changes nothing. -/
inductive Reached : Converter → Prop
  | ofNamespace (word : String) : Reached (ofNamespace word)
  | convert {c c' : Converter} {f : Formula} {F : Cnf String} {vars ws : List String}
    (h : Reached c) (hc : c.convert f vars = .ok (F, ws, c')) : Reached c'

theorem Reached.orderly (h : c.Reached) : c.Orderly := by
  induction h with
  | ofNamespace word => exact orderly_ofNamespace word
  | convert _ hc ih => exact orderly_of_convert ih hc

/-- Converts some formulas in turn, each with its own given variables. -/
def convertEach (c : Converter) :
    List (Formula × List String) → Result (List (Cnf String × List String) × Converter)
  | [] => .ok ([], c)
  | (f, vars) :: calls => do
    let (F, ws, c) ← c.convert f vars
    let (outs, c) ← convertEach c calls
    return ((F, ws) :: outs, c)

/-- Conversions in turn give clauses that are all exact for the last converter. -/
theorem convertEach_spec (h : c.Orderly) {calls : List (Formula × List String)}
    (hplain : ∀ p ∈ calls, Plain c.stem p.1) (hnormal : ∀ p ∈ calls, p.1.isNormal = true) :
    ∃ outs c', c.convertEach calls = .ok (outs, c') ∧ c.Extends c' ∧ c'.Orderly ∧
      List.Forall₂ (fun p out => c'.Exact p.1 out.1 ∧
        ∀ v, v ∈ out.2 ↔ v ∈ p.2 ∨ Auxiliary c.stem v ∧ v ∈ out.1.vars) calls outs := by
  induction calls generalizing c with
  | nil => exact ⟨[], c, rfl, .refl c, h, .nil⟩
  | cons p calls ih =>
    obtain ⟨f, vars⟩ := p
    obtain ⟨F, ws, c₁, hF, hc₁, ho₁, hexact, hvars⟩ :=
      convert_spec h (hplain _ List.mem_cons_self) (hnormal _ List.mem_cons_self) vars
    obtain ⟨outs, c₂, houts, hc₂, ho₂, hforall⟩ := ih ho₁
      (fun p hp => by rw [hc₁.stem_eq]; exact hplain p (List.mem_cons_of_mem _ hp))
      fun p hp => hnormal p (List.mem_cons_of_mem _ hp)
    rw [hc₁.stem_eq] at hforall
    refine ⟨(F, ws) :: outs, c₂, ?_, hc₁.trans hc₂, ho₂, .cons ⟨hexact.mono hc₂, hvars⟩ hforall⟩
    simp [convertEach, hF, houts, bind, Except.bind, pure, Except.pure]

/-- **Conversion is exact, for any use of a converter.** Formulas in negation normal form without
auxiliary variables are converted in turn by a converter that has been in use before. No conversion
fails, and each returns the given variables and the auxiliary variables of its clauses. A valuation
of the other variables that satisfies all the formulas has exactly one extension to the auxiliary
variables of the clauses that satisfies all the clauses; any other has none. -/
theorem convertEach_exact (hc : c.Reached) {calls : List (Formula × List String)}
    (hnormal : ∀ p ∈ calls, p.1.isNormal = true) (hplain : ∀ p ∈ calls, Plain c.stem p.1) :
    ∃ outs c', c.convertEach calls = .ok (outs, c') ∧
      List.Forall₂ (fun p out => ∀ v,
        v ∈ out.2 ↔ v ∈ p.2 ∨ Auxiliary c.stem v ∧ v ∈ out.1.vars) calls outs ∧
      ∀ A : Valuation String,
        ((∀ p ∈ calls, p.1.eval A = true) →
          ∃ A', AgreeOff c.stem A A' ∧ (∀ out ∈ outs, out.1.eval A' = true) ∧
            ∀ A'', AgreeOff c.stem A A'' → (∀ out ∈ outs, out.1.eval A'' = true) →
              ∀ out ∈ outs, ∀ v ∈ out.1.vars, A'' v = A' v) ∧
        ((∃ p ∈ calls, p.1.eval A = false) →
          ∀ A', AgreeOff c.stem A A' → ∃ out ∈ outs, out.1.eval A' = false) := by
  obtain ⟨outs, c', houts, hext, ho, hforall⟩ := convertEach_spec hc.orderly hplain hnormal
  have hstem : c'.stem = c.stem := hext.stem_eq
  -- The clauses are exact for the last converter, which has all the names that were given.
  have exact_of_mem {out} (hout : out ∈ outs) : ∃ p ∈ calls, c'.Exact p.1 out.1 := by
    obtain ⟨p, hp, h⟩ := ListFacts.exists_of_forall₂ hforall hout
    exact ⟨p, hp, h.1⟩
  refine ⟨outs, c', houts, hforall.imp fun _ _ h => h.2, fun A => ⟨fun hA => ?_, ?_⟩⟩
  · refine ⟨c'.extend A, hstem ▸ agreeOff_extend ho A, fun out hout => ?_,
      fun A'' hA'' hF out hout v hv => ?_⟩
    · obtain ⟨p, hp, hexact⟩ := exact_of_mem hout
      rw [(hexact c' (.refl c') ho A).1, hA p hp]
    · obtain ⟨p, -, hexact⟩ := exact_of_mem hout
      exact ((hexact c' (.refl c') ho A).2 A'' (hstem ▸ hA'') (hF out hout)).2 v hv
  · rintro ⟨p, hp, hpA⟩ A' hA'
    obtain ⟨out, hout, hexact, -⟩ := ListFacts.exists_of_forall₂ hforall.flip hp
    refine ⟨out, hout, Bool.eq_false_iff.2 fun hF => ?_⟩
    have := ((hexact c' (.refl c') ho A).2 A' (hstem ▸ hA') hF).1
    simp [hpA] at this

/-- A conjunction that was named in an earlier conversion is used twice, and an empty one once. -/
theorem convertEach_exact_shared :
    let f : Formula := .or [.and [.atom "a", .atom "b"], .atom "c"]
    let g : Formula := .or [.and [.atom "a", .atom "b"], .and []]
    let c : Converter := ⟨"_aux", [(.and [.atom "a", .atom "b"], "_aux0")]⟩
    standard.convert f f.vars = .ok
      ([[.neg "_aux0", .pos "a"], [.neg "_aux0", .pos "b"], [.pos "_aux0", .neg "a", .neg "b"],
        [.pos "_aux0", .pos "c"]], ["_aux0", "a", "b", "c"], c) ∧
    ∃ outs c', c.convertEach [(g, []), (f, ["d"])] = .ok (outs, c') ∧
      ∃ A', A' "a" = false ∧ A' "c" = true ∧ ∀ out ∈ outs, out.1.eval A' = true := by
  intro f g c
  have hc : standard.convert f f.vars = .ok
      ([[.neg "_aux0", .pos "a"], [.neg "_aux0", .pos "b"], [.pos "_aux0", .neg "a", .neg "b"],
        [.pos "_aux0", .pos "c"]], ["_aux0", "a", "b", "c"], c) := by rfl
  have hplain : ∀ p ∈ [(g, []), (f, ["d"])], Plain ("_" ++ "aux") p.1 := by
    intro p hp v hv
    refine not_auxiliary ?_
    have : v = "a" ∨ v = "b" ∨ v = "c" := by
      simp only [List.mem_cons, List.not_mem_nil, or_false] at hp
      rcases hp with rfl | rfl <;> simp [f, g] at hv <;> tauto
    rcases this with rfl | rfl | rfl <;> decide
  obtain ⟨outs, c', houts, -, hexact⟩ :=
    convertEach_exact (.convert (.ofNamespace "aux") hc) (by decide) hplain
  obtain ⟨A', hA, heval, -⟩ := (hexact fun v => v == "c").1 (by decide)
  refine ⟨hc, outs, c', houts, A', ?_, ?_, heval⟩
  · exact hA "a" (@not_auxiliary "a" "aux" (by decide))
  · exact hA "c" (@not_auxiliary "c" "aux" (by decide))

end Converter

end JudgmentAggregation
