import JudgmentAggregation.Proofs.Cnf.Naming
import JudgmentAggregation.Proofs.Formula.NormalForm

/-!
# What a conversion does

A step of a conversion (`Conversion.Step`) keeps what is there, states some clauses of its own (the
**tops**), and introduces auxiliary variables only together with the clauses that define them; it
adds no other clause. Steps compose, and every function of the conversion makes one
(`Conversion.literal_spec`, `Conversion.disjuncts_spec`, `Conversion.conjuncts_spec`), so that the
clauses of a whole conversion are the tops and the definitions of the names used.

The invariant speaks of the names defined *since* a state, not of all of them: while the operands
of a formula are converted, its name is known already and its definition is not stated yet.
-/

namespace JudgmentAggregation

/-- A formula is **compound** when it is a conjunction or a disjunction. -/
inductive Formula.Compound : Formula → Prop
  | and (fs : List Formula) : Compound (.and fs)
  | or (fs : List Formula) : Compound (.or fs)

/-! ### Defining clauses -/

section Clauses

variable {A : Valuation String} {aux : Literal String} {ls : Clause String}

theorem Cnf.eval_append {α : Type} (A : Valuation α) (F G : Cnf α) :
    Cnf.eval A (F ++ G) = (F.eval A && G.eval A) :=
  List.all_append

/-- The clauses for a conjunction say that its literal has the value of the conjunction. -/
theorem Conversion.eval_conjunctionClauses :
    Cnf.eval A (conjunctionClauses aux ls) = (aux.eval A == ls.all (·.eval A)) := by
  rw [conjunctionClauses, Cnf.eval_append]
  cases h : aux.eval A <;>
    simp [Cnf.eval, Clause.eval, h, Function.comp_def, List.not_all_eq_any_not]

/-- The clauses for a disjunction say that its literal has the value of the disjunction. -/
theorem Conversion.eval_disjunctionClauses :
    Cnf.eval A (disjunctionClauses aux ls) = (aux.eval A == ls.any (·.eval A)) := by
  rw [disjunctionClauses, eval_conjunctionClauses]
  simp [Function.comp_def, ← List.not_any_eq_all_not]

end Clauses

namespace Conversion

/-- A literal **stands** for a formula when it is the literal that the formula is, or the name of
the formula and defined in this conversion. -/
inductive Stands (s : Conversion) : Formula → Literal String → Prop
  | atom (v : String) : Stands s (.atom v) (.pos v)
  | not (v : String) : Stands s (.not (.atom v)) (.neg v)
  | name {f : Formula} {n : String} (hn : n ∈ s.defined) (hf : s.converter.nameOf? f = some n) :
    Stands s f (.pos n)

/-- The clauses that **define** the name of a formula by literals that stand for the operands. -/
inductive Defines (s : Conversion) : Formula → String → Cnf String → Prop
  | and {fs : List Formula} {n : String} {ls : Clause String}
    (hf : s.converter.nameOf? (.and fs) = some n) (hls : List.Forall₂ s.Stands fs ls) :
    Defines s (.and fs) n (conjunctionClauses (.pos n) ls)
  | or {fs : List Formula} {n : String} {ls : Clause String}
    (hf : s.converter.nameOf? (.or fs) = some n) (hls : List.Forall₂ s.Stands fs ls) :
    Defines s (.or fs) n (disjunctionClauses (.pos n) ls)

/-- A conversion goes on as another one when names, definitions and clauses are kept. -/
structure Keeps (s s' : Conversion) : Prop where
  names : s.converter.Extends s'.converter
  defined : ∀ n ∈ s.defined, n ∈ s'.defined
  clauses : ∀ c ∈ s.clauses, c ∈ s'.clauses

variable {s s' s'' : Conversion} {f : Formula} {fs : List Formula} {l : Literal String}
  {n : String} {F G : Cnf String}

theorem Keeps.refl (s : Conversion) : s.Keeps s :=
  ⟨.refl _, fun _ h => h, fun _ h => h⟩

theorem Keeps.trans (h : s.Keeps s') (h' : s'.Keeps s'') : s.Keeps s'' :=
  ⟨h.names.trans h'.names, fun n hn => h'.defined n (h.defined n hn),
    fun c hc => h'.clauses c (h.clauses c hc)⟩

theorem Stands.mono (hk : s.Keeps s') (h : s.Stands f l) : s'.Stands f l := by
  cases h with
  | atom v => exact .atom v
  | not v => exact .not v
  | name hn hf => exact .name (hk.defined _ hn) (hk.names.nameOf _ _ hf)

theorem Defines.mono (hk : s.Keeps s') (h : s.Defines f n F) : s'.Defines f n F := by
  cases h with
  | and hf hls => exact .and (hk.names.nameOf _ _ hf) (hls.imp fun _ _ => Stands.mono hk)
  | or hf hls => exact .or (hk.names.nameOf _ _ hf) (hls.imp fun _ _ => Stands.mono hk)

/-- A formula that is defined has its name. -/
theorem Defines.nameOf (h : s.Defines f n F) : s.converter.nameOf? f = some n := by
  cases h <;> assumption

/-! ### Steps -/

/-- A **step** of a conversion that states some clauses of its own. The formulas named in it have a
property `P`. -/
structure Step (P : Formula → Prop) (tops : Cnf String) (s s' : Conversion) : Prop where
  keeps : s.Keeps s'
  orderly : s'.converter.Orderly
  tops_mem : ∀ c ∈ tops, c ∈ s'.clauses
  of_defined : ∀ n ∈ s'.defined, n ∈ s.defined ∨
    ∃ f F, P f ∧ s'.Defines f n F ∧ ∀ c ∈ F, c ∈ s'.clauses
  of_clause : ∀ c ∈ s'.clauses, c ∈ s.clauses ∨ c ∈ tops ∨
    ∃ f n F, P f ∧ n ∈ s'.defined ∧ s'.Defines f n F ∧ c ∈ F

variable {P : Formula → Prop} {tops tops' : Cnf String}

theorem Step.refl (h : s.converter.Orderly) : Step P [] s s :=
  ⟨.refl s, h, by simp, fun _ => .inl, fun _ => .inl⟩

theorem Step.trans (h : Step P tops s s') (h' : Step P tops' s' s'') :
    Step P (tops ++ tops') s s'' where
  keeps := h.keeps.trans h'.keeps
  orderly := h'.orderly
  tops_mem c hc := by
    rcases List.mem_append.1 hc with hc | hc
    · exact h'.keeps.clauses c (h.tops_mem c hc)
    · exact h'.tops_mem c hc
  of_defined n hn := by
    rcases h'.of_defined n hn with hn | hn
    · rcases h.of_defined n hn with hn | ⟨f, F, hf, hF, hc⟩
      · exact .inl hn
      · exact .inr ⟨f, F, hf, hF.mono h'.keeps, fun c hcF => h'.keeps.clauses c (hc c hcF)⟩
    · exact .inr hn
  of_clause c hc := by
    rcases h'.of_clause c hc with hc | hc | hc
    · rcases h.of_clause c hc with hc | hc | ⟨f, n, F, hf, hn, hF, hc⟩
      · exact .inl hc
      · exact .inr (.inl (List.mem_append_left _ hc))
      · exact .inr (.inr ⟨f, n, F, hf, h'.keeps.defined n hn, hF.mono h'.keeps, hc⟩)
    · exact .inr (.inl (List.mem_append_right _ hc))
    · exact .inr (.inr hc)

/-- A clause stated by itself. -/
theorem Step.emit (h : s.converter.Orderly) (c : Clause String) : Step P [c] s (s.emit c) where
  keeps := ⟨.refl _, fun _ h => h, fun _ h => List.mem_cons_of_mem _ h⟩
  orderly := h
  tops_mem d hd := by
    rw [List.mem_singleton.1 hd]
    exact List.mem_cons_self
  of_defined n := .inl
  of_clause d hd := by
    rcases List.mem_cons.1 hd with rfl | hd
    · exact .inr (.inl (List.mem_singleton_self d))
    · exact .inl hd

/-- The conversion behind a use of the name of a formula that is defined already. -/
def reuse (f : Formula) (s : Conversion) : Conversion :=
  { s with converter := (s.converter.name f).2 }

/-- The conversion in which a formula has got its name and its operands are converted next. -/
def mark (f : Formula) (s : Conversion) : Conversion :=
  ⟨(s.converter.name f).2, (s.converter.name f).1 :: s.defined, s.clauses⟩

/-- A name that is used once more. -/
theorem Step.reuse (h : s.converter.Orderly) (f : Formula) : Step P [] s (s.reuse f) :=
  ⟨⟨(Converter.name_spec h f).2.1, fun _ h => h, fun _ h => h⟩, (Converter.name_spec h f).1,
    by simp, fun _ => .inl, fun _ => .inl⟩

/-- A name that is new in this conversion: between its introduction and its definition, the operands
of the formula are converted. -/
theorem Step.define (h : s.converter.Orderly) (hf : P f) (hs : Step P [] (s.mark f) s')
    (hG : s'.Defines f (s.converter.name f).1 G) : Step P [] s (s'.emitAll G) := by
  have hk : s'.Keeps (s'.emitAll G) :=
    ⟨.refl _, fun _ h => h, fun c hc => List.mem_append_right _ hc⟩
  have hmem : ∀ c ∈ G, c ∈ (s'.emitAll G).clauses := fun c hc =>
    List.mem_append_left _ (List.mem_reverse.2 hc)
  refine ⟨⟨(Converter.name_spec h f).2.1.trans hs.keeps.names, fun n hn => ?_, fun c hc => ?_⟩,
    hs.orderly, by simp, fun n hn => ?_, fun c hc => ?_⟩
  · exact hs.keeps.defined n (List.mem_cons_of_mem _ hn)
  · exact hk.clauses c (hs.keeps.clauses c hc)
  · rcases hs.of_defined n hn with hn | ⟨g, F, hg, hF, hc⟩
    · rcases List.mem_cons.1 hn with rfl | hn
      · exact .inr ⟨f, G, hf, hG.mono hk, hmem⟩
      · exact .inl hn
    · exact .inr ⟨g, F, hg, hF.mono hk, fun c hcF => hk.clauses c (hc c hcF)⟩
  · rcases List.mem_append.1 hc with hc | hc
    · exact .inr (.inr ⟨f, _, G, hf, hs.keeps.defined _ List.mem_cons_self, hG.mono hk,
        List.mem_reverse.1 hc⟩)
    · rcases hs.of_clause c hc with hc | hc | ⟨g, n, F, hg, hn, hF, hc⟩
      · exact .inl hc
      · simp at hc
      · exact .inr (.inr ⟨g, n, F, hg, hn, hF.mono hk, hc⟩)

/-! ### The functions of a conversion -/

/-- The operands of a conjunction or a disjunction. -/
def operands : Formula → List Formula
  | .and fs => fs
  | .or fs => fs
  | _ => []

/-- The clauses that define the name of a compound formula by the literals of its operands. -/
def definition : Formula → String → Clause String → Cnf String
  | .and _, n, ls => conjunctionClauses (.pos n) ls
  | _, n, ls => disjunctionClauses (.pos n) ls

theorem mem_vars_of_mem_operands {g : Formula} {v : String} (hg : g ∈ operands f)
    (hv : v ∈ g.vars) : v ∈ f.vars := by
  cases f with
  | and fs => exact Formula.mem_vars_and.2 ⟨g, hg, hv⟩
  | or fs => exact Formula.mem_vars_or.2 ⟨g, hg, hv⟩
  | atom w | not f | implies f f' => cases hg

/-- A property of formulas that the operands of conjunctions and disjunctions inherit. -/
def Inherited (P : Formula → Prop) : Prop :=
  ∀ f, P f → ∀ g ∈ operands f, P g

/-- Under the second valuation, the literals that stand for formulas have the values of the formulas
under the first. -/
def Reads (P : Formula → Prop) (s : Conversion) (A A' : Valuation String) : Prop :=
  ∀ f l, P f → s.Stands f l → l.eval A' = f.eval A

/-- A clause **means** a formula when its literals stand for formulas and it has the value of the
formula as soon as they have theirs. -/
structure Means (P : Formula → Prop) (s : Conversion) (c : Clause String) (f : Formula) : Prop where
  stands : ∀ l ∈ c, ∃ g, P g ∧ s.Stands g l
  eval_eq : ∀ A A', s.Reads P A A' → c.eval A' = f.eval A

/-- Clauses **mean** a formula when their literals stand for formulas and they have the value of the
formula as soon as these have theirs. -/
structure MeansAll (P : Formula → Prop) (s : Conversion) (F : Cnf String) (f : Formula) : Prop where
  stands : ∀ c ∈ F, ∀ l ∈ c, ∃ g, P g ∧ s.Stands g l
  eval_eq : ∀ A A', s.Reads P A A' → F.eval A' = f.eval A

variable {A A' : Valuation String} {c : Clause String}

theorem Reads.mono (hk : s.Keeps s') (h : s'.Reads P A A') : s.Reads P A A' :=
  fun f l hf hl => h f l hf (hl.mono hk)

theorem Means.mono (hk : s.Keeps s') (h : s.Means P c f) : s'.Means P c f where
  stands l hl := (h.stands l hl).imp fun _ hg => ⟨hg.1, hg.2.mono hk⟩
  eval_eq A A' hA := h.eval_eq A A' (hA.mono hk)

theorem MeansAll.mono (hk : s.Keeps s') (h : s.MeansAll P F f) : s'.MeansAll P F f where
  stands c hc l hl := (h.stands c hc l hl).imp fun _ hg => ⟨hg.1, hg.2.mono hk⟩
  eval_eq A A' hA := h.eval_eq A A' (hA.mono hk)

/-- If each operand has its literal, so have all of them in turn. -/
theorem literals_spec (h : s.converter.Orderly) (hP : ∀ f ∈ fs, P f)
    (hfs : ∀ f ∈ fs, ∀ s : Conversion, s.converter.Orderly → P f →
      ∃ l s', literal f s = .ok (l, s') ∧ Step P [] s s' ∧ s'.Stands f l) :
    ∃ ls s', literals fs s = .ok (ls, s') ∧ Step P [] s s' ∧ List.Forall₂ s'.Stands fs ls := by
  induction fs generalizing s with
  | nil => exact ⟨[], s, rfl, .refl h, .nil⟩
  | cons f fs ih =>
    obtain ⟨l, s₁, hl, hstep, hstands⟩ := hfs f List.mem_cons_self s h (hP f List.mem_cons_self)
    obtain ⟨ls, s₂, hls, hsteps, hforall⟩ := ih hstep.orderly
      (fun g hg => hP g (List.mem_cons_of_mem _ hg)) fun g hg => hfs g (List.mem_cons_of_mem _ hg)
    refine ⟨l :: ls, s₂, ?_, hstep.trans hsteps, .cons (hstands.mono hsteps.keeps) hforall⟩
    simp only [literals, hl, hls, bind, Except.bind]
    rfl

/-- The clauses over the literals of the operands define a formula. -/
theorem defines_definition {ls : Clause String} (hf : f.Compound)
    (hn : s.converter.nameOf? f = some n) (hls : List.Forall₂ s.Stands (operands f) ls) :
    s.Defines f n (definition f n ls) := by
  cases hf with
  | and fs => exact .and hn hls
  | or fs => exact .or hn hls

/-- The conjunctions and the disjunctions have the same course: the name is introduced and, unless
it is defined already, the operands are converted and the definition is stated. -/
theorem literal_of_compound (hf : f.Compound) (s : Conversion) :
    literal f s =
      if (s.converter.name f).1 ∈ s.defined then .ok (.pos (s.converter.name f).1, s.reuse f)
      else do
        let (ls, s') ← literals (operands f) (s.mark f)
        return (.pos (s.converter.name f).1,
          s'.emitAll (definition f (s.converter.name f).1 ls)) := by
  by_cases hd : (s.converter.name f).1 ∈ s.defined
  · rw [if_pos hd]
    cases hf <;> simp [literal, introduce, hd, reuse]
  · rw [if_neg hd]
    cases hf <;> simp [literal, introduce, hd, mark, operands, definition]

/-- A compound formula has its literal: the name that it has already, or a new one. -/
theorem compound_spec (hP : Inherited P) (h : s.converter.Orderly) (hf : P f)
    (hcompound : f.Compound)
    (hops : ∀ g ∈ operands f, ∀ s : Conversion, s.converter.Orderly → P g →
      ∃ l s', literal g s = .ok (l, s') ∧ Step P [] s s' ∧ s'.Stands g l) :
    ∃ l s', literal f s = .ok (l, s') ∧ Step P [] s s' ∧ s'.Stands f l := by
  have hname := (Converter.name_spec h f).2.2
  rw [literal_of_compound hcompound]
  -- A name of an earlier conversion is defined anew, since its clauses are not among these.
  by_cases hd : (s.converter.name f).1 ∈ s.defined
  · rw [if_pos hd]
    exact ⟨_, _, rfl, .reuse h f, .name hd hname⟩
  · obtain ⟨ls, s', hls, hstep, hforall⟩ :=
      literals_spec (s := s.mark f) (Converter.name_spec h f).1 (hP f hf) hops
    have hn := hstep.keeps.names.nameOf _ _ hname
    rw [if_neg hd, hls]
    exact ⟨_, _, rfl, .define h hf hstep (defines_definition hcompound hn hforall),
      .name (hstep.keeps.defined _ List.mem_cons_self) hn⟩

/-- A formula in negation normal form has a literal. -/
theorem literal_spec (hP : Inherited P) (h : s.converter.Orderly) (hf : P f)
    (hnormal : f.isNormal = true) :
    ∃ l s', literal f s = .ok (l, s') ∧ Step P [] s s' ∧ s'.Stands f l := by
  induction f generalizing s with
  | atom v => exact ⟨.pos v, s, rfl, .refl h, .atom v⟩
  | not f ih =>
    obtain ⟨v, rfl⟩ := Formula.isNormal_not.1 hnormal
    exact ⟨.neg v, s, rfl, .refl h, .not v⟩
  | and fs ih =>
    exact compound_spec hP h hf (.and fs) fun f hmem s hs hPf =>
      ih f hmem hs hPf (Formula.isNormal_and.1 hnormal f hmem)
  | or fs ih =>
    exact compound_spec hP h hf (.or fs) fun f hmem s hs hPf =>
      ih f hmem hs hPf (Formula.isNormal_or.1 hnormal f hmem)
  | implies f g => simp at hnormal

theorem Means.singleton (hf : P f) (hl : s.Stands f l) : s.Means P [l] f where
  stands m hm := ⟨f, hf, List.mem_singleton.1 hm ▸ hl⟩
  eval_eq A A' hA := by simp [Clause.eval, hA f l hf hl]

theorem Means.append {d : Clause String} (hc : s.Means P c f) (hd : s.Means P d (.or fs)) :
    s.Means P (c ++ d) (.or (f :: fs)) where
  stands l hl := (List.mem_append.1 hl).elim (hc.stands l) (hd.stands l)
  eval_eq A A' hA := by
    have h₁ := hc.eval_eq A A' hA
    have h₂ := hd.eval_eq A A' hA
    simp only [Clause.eval, Formula.eval_or] at h₁ h₂ ⊢
    rw [List.any_append, h₁, h₂, List.any_cons]

theorem MeansAll.singleton (hc : s.Means P c f) : s.MeansAll P [c] f where
  stands d hd := List.mem_singleton.1 hd ▸ hc.stands
  eval_eq A A' hA := by simp [Cnf.eval, hc.eval_eq A A' hA]

theorem MeansAll.append (hF : s.MeansAll P F f) (hG : s.MeansAll P G (.and fs)) :
    s.MeansAll P (F ++ G) (.and (f :: fs)) where
  stands c hc := (List.mem_append.1 hc).elim (hF.stands c) (hG.stands c)
  eval_eq A A' hA := by
    rw [Cnf.eval_append, hF.eval_eq A A' hA, hG.eval_eq A A' hA, Formula.eval_and,
      Formula.eval_and, List.all_cons]

/-- If each operand of a disjunction has its clause, the disjunction has one. -/
theorem disjunctsAll_spec (h : s.converter.Orderly) (hP : ∀ f ∈ fs, P f)
    (hfs : ∀ f ∈ fs, ∀ s : Conversion, s.converter.Orderly → P f →
      ∃ c s', disjuncts f s = .ok (c, s') ∧ Step P [] s s' ∧ s'.Means P c f) :
    ∃ c s', disjunctsAll fs s = .ok (c, s') ∧ Step P [] s s' ∧ s'.Means P c (.or fs) := by
  induction fs generalizing s with
  | nil => exact ⟨[], s, rfl, .refl h, by simp, fun _ _ _ => rfl⟩
  | cons f fs ih =>
    obtain ⟨c, s₁, hc, hstep, hmeans⟩ := hfs f List.mem_cons_self s h (hP f List.mem_cons_self)
    obtain ⟨d, s₂, hd, hsteps, hmeansAll⟩ := ih hstep.orderly
      (fun g hg => hP g (List.mem_cons_of_mem _ hg)) fun g hg => hfs g (List.mem_cons_of_mem _ hg)
    refine ⟨c ++ d, s₂, ?_, hstep.trans hsteps, (hmeans.mono hsteps.keeps).append hmeansAll⟩
    simp only [disjunctsAll, hc, hd, bind, Except.bind]
    rfl

/-- Where the formula is no disjunction, the clause is its literal. -/
theorem disjuncts_of_literal {s₁ : Conversion} (hf : P f) (hl : literal f s = .ok (l, s₁))
    (hd : disjuncts f s = (do let (l, s) ← literal f s; return ([l], s))) (hstep : Step P [] s s₁)
    (hstands : s₁.Stands f l) :
    ∃ c s', disjuncts f s = .ok (c, s') ∧ Step P [] s s' ∧ s'.Means P c f :=
  ⟨[l], s₁, by rw [hd, hl]; rfl, hstep, .singleton hf hstands⟩

/-- A formula in negation normal form has a clause. -/
theorem disjuncts_spec (hP : Inherited P) (h : s.converter.Orderly) (hf : P f)
    (hnormal : f.isNormal = true) :
    ∃ c s', disjuncts f s = .ok (c, s') ∧ Step P [] s s' ∧ s'.Means P c f := by
  induction f generalizing s with
  | or fs ih =>
    rw [disjuncts]
    exact disjunctsAll_spec h (hP (.or fs) hf) fun f hmem s hs hPf =>
      ih f hmem hs hPf (Formula.isNormal_or.1 hnormal f hmem)
  | atom v | not f | and fs | implies f g =>
    obtain ⟨l, s₁, hl, hstep, hstands⟩ := literal_spec hP h hf hnormal
    exact disjuncts_of_literal hf hl rfl hstep hstands

/-- If each operand of a conjunction has its clauses, the conjunction has some. -/
theorem conjunctsAll_spec (h : s.converter.Orderly) (hP : ∀ f ∈ fs, P f)
    (hfs : ∀ f ∈ fs, ∀ s : Conversion, s.converter.Orderly → P f →
      ∃ F s', conjuncts f s = .ok s' ∧ Step P F s s' ∧ s'.MeansAll P F f) :
    ∃ F s', conjunctsAll fs s = .ok s' ∧ Step P F s s' ∧ s'.MeansAll P F (.and fs) := by
  induction fs generalizing s with
  | nil => exact ⟨[], s, rfl, .refl h, by simp, fun _ _ _ => rfl⟩
  | cons f fs ih =>
    obtain ⟨F, s₁, hF, hstep, hmeans⟩ := hfs f List.mem_cons_self s h (hP f List.mem_cons_self)
    obtain ⟨G, s₂, hG, hsteps, hmeansAll⟩ := ih hstep.orderly
      (fun g hg => hP g (List.mem_cons_of_mem _ hg)) fun g hg => hfs g (List.mem_cons_of_mem _ hg)
    refine ⟨F ++ G, s₂, ?_, hstep.trans hsteps, (hmeans.mono hsteps.keeps).append hmeansAll⟩
    simp only [conjunctsAll, hF, hG, bind, Except.bind]

/-- A formula that is no conjunction is asserted by the clause that it has. -/
theorem conjuncts_of_disjuncts {s₁ : Conversion} (hd : disjuncts f s = .ok (c, s₁))
    (hc : conjuncts f s = (do let (c, s) ← disjuncts f s; return s.emit c))
    (hstep : Step P [] s s₁) (hmeans : s₁.Means P c f) :
    ∃ F s', conjuncts f s = .ok s' ∧ Step P F s s' ∧ s'.MeansAll P F f := by
  have hemit : Step P [c] s₁ (s₁.emit c) := .emit hstep.orderly c
  exact ⟨[c], s₁.emit c, by rw [hc, hd]; rfl, hstep.trans hemit,
    .singleton (hmeans.mono hemit.keeps)⟩

/-- A formula in negation normal form has clauses. -/
theorem conjuncts_spec (hP : Inherited P) (h : s.converter.Orderly) (hf : P f)
    (hnormal : f.isNormal = true) :
    ∃ F s', conjuncts f s = .ok s' ∧ Step P F s s' ∧ s'.MeansAll P F f := by
  induction f generalizing s with
  | and fs ih =>
    rw [conjuncts]
    exact conjunctsAll_spec h (hP (.and fs) hf) fun f hmem s hs hPf =>
      ih f hmem hs hPf (Formula.isNormal_and.1 hnormal f hmem)
  | atom v | not f | or fs | implies f g =>
    obtain ⟨c, s₁, hc, hstep, hmeans⟩ := disjuncts_spec hP h hf hnormal
    exact conjuncts_of_disjuncts hc rfl hstep hmeans

end Conversion

end JudgmentAggregation
