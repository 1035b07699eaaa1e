import JudgmentAggregation.Proofs.Cnf.Conversion

/-!
# Conversions without names

The **scheme** of a formula in negation normal form is its conversion with the compound formulas
themselves in the place of their names: clauses whose letters are formulas, an atom standing for
itself. What a converter returns is the scheme written with its names, so that all that a converter
remembers from one conversion to the next is in the names.

The letters of a scheme are the atoms of the formula and compound formulas within it
(`Formula.scheme_over`).
-/

namespace JudgmentAggregation

/-! ### Renaming -/

section Rename

variable {α β γ : Type} {g : α → β} {F : Cnf α}

/-- A literal with another variable. -/
def Literal.rename (h : α → β) (l : Literal α) : Literal β :=
  ⟨h l.var, l.positive⟩

/-- A clause with other variables. -/
def Clause.rename (h : α → β) (c : Clause α) : Clause β :=
  c.map (Literal.rename h)

/-- A CNF formula with other variables. -/
def Cnf.rename (h : α → β) (F : Cnf α) : Cnf β :=
  F.map (Clause.rename h)

@[simp] theorem Literal.negate_pos (v : α) : (pos v).negate = neg v := rfl

@[simp] theorem Literal.negate_neg (v : α) : (neg v).negate = pos v := rfl

@[simp] theorem Literal.rename_pos (h : α → β) (v : α) : (pos v).rename h = pos (h v) := rfl

@[simp] theorem Literal.rename_neg (h : α → β) (v : α) : (neg v).rename h = neg (h v) := rfl

/-- The opposite of a literal is renamed to the opposite of the renamed one. -/
@[simp] theorem Literal.rename_negate (h : α → β) (l : Literal α) :
    l.negate.rename h = (l.rename h).negate := rfl

theorem Clause.rename_append (h : α → β) (c d : Clause α) :
    Clause.rename h (c ++ d) = c.rename h ++ d.rename h :=
  List.map_append

theorem Cnf.rename_append (h : α → β) (F G : Cnf α) :
    Cnf.rename h (F ++ G) = F.rename h ++ G.rename h :=
  List.map_append

theorem Cnf.mem_vars_rename {F : Cnf α} {h : α → String} {v : String} :
    v ∈ (F.rename h).vars ↔ ∃ c ∈ F, ∃ l ∈ c, h l.var = v := by
  simp [Cnf.vars, Cnf.rename, Clause.rename, Literal.rename, SortedList.mem_ofList]

/-- Two renamings one after the other make one that agrees with them on the variables there are. -/
theorem Cnf.rename_rename {k : α → γ} {h : β → γ} (hk : ∀ c ∈ F, ∀ l ∈ c, h (g l.var) = k l.var) :
    (F.rename g).rename h = F.rename k := by
  rw [Cnf.rename, Cnf.rename, List.map_map]
  refine List.map_congr_left fun c hc => ?_
  rw [Function.comp_apply, Clause.rename, Clause.rename, List.map_map]
  exact List.map_congr_left fun l hl => congrArg (Literal.mk · l.positive) (hk c hc l hl)

end Rename

/-! ### Schemes -/

namespace Formula

/-- A formula is **within** another one when operands of operands lead to it. -/
inductive Within (f : Formula) : Formula → Prop
  | refl : Within f f
  | operand {g h : Formula} (hg : Within f g) (hh : h ∈ Conversion.operands g) : Within f h

/-- The literal of a formula in a scheme: an atom under its sign, or the formula itself. -/
def literal : Formula → Literal Formula
  | .not f => .neg f
  | f => .pos f

mutual

/-- The operands of the disjunctions at the top of a formula. -/
def disjuncts : Formula → List Formula
  | .or fs => disjunctsAll fs
  | f => [f]

/-- The operands of the disjunctions at the top of some formulas. -/
def disjunctsAll : List Formula → List Formula
  | [] => []
  | f :: fs => f.disjuncts ++ disjunctsAll fs

end

mutual

/-- The clauses of a formula: the disjuncts of each operand of the conjunctions at its top. -/
def conjuncts : Formula → List (List Formula)
  | .and fs => conjunctsAll fs
  | f => [f.disjuncts]

/-- The clauses of some formulas. -/
def conjunctsAll : List Formula → List (List Formula)
  | [] => []
  | f :: fs => f.conjuncts ++ conjunctsAll fs

end

end Formula

/-- The compound formulas that are defined so far, the last one first, and the clauses. -/
structure Scheme where
  defined : List Formula
  clauses : Cnf Formula

namespace Scheme

open Conversion (operands)

/-- One more compound formula. -/
def mark (f : Formula) (o : Scheme) : Scheme :=
  { o with defined := f :: o.defined }

/-- Some more clauses. -/
def state (F : Cnf Formula) (o : Scheme) : Scheme :=
  { o with clauses := o.clauses ++ F }

/-- The clauses that make a compound formula equivalent to the conjunction or the disjunction of its
operands. -/
def definition : Formula → Cnf Formula
  | .and fs =>
    fs.map (fun g => [.neg (.and fs), g.literal]) ++
      [.pos (.and fs) :: fs.map fun g => g.literal.negate]
  | .or fs =>
    fs.map (fun g => [.pos (.or fs), g.literal.negate]) ++ [.neg (.or fs) :: fs.map (·.literal)]
  | _ => []

mutual

/-- States the definitions that a formula needs: of the compound formulas within it, each one behind
those of its operands, and none a second time. -/
def define : Formula → Scheme → Scheme
  | .and fs, o =>
    if .and fs ∈ o.defined then o
    else (defineAll fs (o.mark (.and fs))).state (definition (.and fs))
  | .or fs, o =>
    if .or fs ∈ o.defined then o
    else (defineAll fs (o.mark (.or fs))).state (definition (.or fs))
  | _, o => o

/-- States the definitions that some formulas need. -/
def defineAll : List Formula → Scheme → Scheme
  | [], o => o
  | f :: fs, o => defineAll fs (define f o)

end

/-- States that one of some formulas is true. -/
def assert (o : Scheme) (fs : List Formula) : Scheme :=
  (o.defineAll fs).state [fs.map (·.literal)]

/-- Makes several statements in turn. -/
def assertAll (o : Scheme) (fss : List (List Formula)) : Scheme :=
  fss.foldl assert o

end Scheme

/-- The **scheme** of a formula. -/
def Formula.scheme (f : Formula) : Scheme :=
  Scheme.assertAll ⟨[], []⟩ f.conjuncts

namespace Formula

variable {f g h : Formula} {fs : List Formula} {v : String}

theorem Within.mem_vars (hg : f.Within g) (hv : v ∈ g.vars) : v ∈ f.vars := by
  induction hg with
  | refl => exact hv
  | operand _ hh ih => exact ih (Conversion.mem_vars_of_mem_operands hh hv)

theorem disjuncts_or (fs : List Formula) : (Formula.or fs).disjuncts = fs.flatMap disjuncts := by
  rw [disjuncts]
  induction fs with
  | nil => rfl
  | cons f fs ih => rw [disjunctsAll, ih, List.flatMap_cons]

theorem conjuncts_and (fs : List Formula) : (Formula.and fs).conjuncts = fs.flatMap conjuncts := by
  rw [conjuncts]
  induction fs with
  | nil => rfl
  | cons f fs ih => rw [conjunctsAll, ih, List.flatMap_cons]

/-- The disjuncts of a formula within another one are within it too, and in negation normal form if
the formula is. -/
theorem within_of_mem_disjuncts (hg : f.Within g) (hnormal : g.isNormal = true)
    (hh : h ∈ g.disjuncts) : f.Within h ∧ h.isNormal = true := by
  induction g with
  | or fs ih =>
    rw [disjuncts_or] at hh
    obtain ⟨g, hmem, hh⟩ := List.mem_flatMap.1 hh
    exact ih g hmem (hg.operand hmem) (isNormal_or.1 hnormal g hmem) hh
  | atom | not | and | implies =>
    obtain rfl := List.mem_singleton.1 hh
    exact ⟨hg, hnormal⟩

/-- The conjuncts of a normal formula are normal and within it. -/
theorem within_of_mem_conjuncts (hg : f.Within g) (hnormal : g.isNormal = true)
    (hfs : fs ∈ g.conjuncts) (hh : h ∈ fs) : f.Within h ∧ h.isNormal = true := by
  induction g with
  | and gs ih =>
    rw [conjuncts_and] at hfs
    obtain ⟨g, hmem, hfs⟩ := List.mem_flatMap.1 hfs
    exact ih g hmem (hg.operand hmem) (isNormal_and.1 hnormal g hmem) hfs
  | atom | not | or | implies =>
    obtain rfl := List.mem_singleton.1 hfs
    exact within_of_mem_disjuncts hg hnormal hh

end Formula

namespace Scheme

open Conversion (operands)

variable {o o' : Scheme} {f g : Formula} {fs : List Formula} {x : Formula} {v : String}

/-- The definition of a compound formula is stated behind those of its operands, unless it has been
stated. -/
theorem define_of_compound (hf : f.Compound) (o : Scheme) :
    o.define f = if f ∈ o.defined then o
      else (defineAll (operands f) (o.mark f)).state (definition f) := by
  cases hf <;> rw [define] <;> rfl

theorem defineAll_append (fs gs : List Formula) (o : Scheme) :
    o.defineAll (fs ++ gs) = (o.defineAll fs).defineAll gs := by
  induction fs generalizing o with
  | nil => rfl
  | cons f fs ih => exact ih (o.define f)

theorem assertAll_append (fss gss : List (List Formula)) (o : Scheme) :
    o.assertAll (fss ++ gss) = (o.assertAll fss).assertAll gss :=
  List.foldl_append

/-! ### The letters of a scheme -/

/-- The **letters** that a scheme of a formula may use: the compound formulas that it defines, and
the atoms of the formula. -/
def Letter (f : Formula) (o : Scheme) (x : Formula) : Prop :=
  x ∈ o.defined ∨ ∃ v ∈ f.vars, x = .atom v

/-- A scheme is **over** a formula when it defines compound formulas within it and uses no other
letters than these and the atoms of the formula. -/
structure Over (f : Formula) (o : Scheme) : Prop where
  defined : ∀ g ∈ o.defined, g.Compound ∧ f.Within g
  letter : ∀ c ∈ o.clauses, ∀ l ∈ c, o.Letter f l.var

/-- What the definitions of some formulas within a formula do to a scheme over it: they keep what is
defined, and the literals of the formulas may be used from then on. -/
structure Provides (f : Formula) (fs : List Formula) (o o' : Scheme) : Prop where
  isOver : o'.Over f
  defined : ∀ g ∈ o.defined, g ∈ o'.defined
  letter : ∀ g ∈ fs, o'.Letter f g.literal.var

theorem Letter.mono (h : ∀ g ∈ o.defined, g ∈ o'.defined) (hx : o.Letter f x) : o'.Letter f x :=
  hx.imp_left (h x)

/-- A scheme stays over a formula when clauses on its letters are stated. -/
theorem Over.state (h : o.Over f) {F : Cnf Formula} (hF : ∀ c ∈ F, ∀ l ∈ c, o.Letter f l.var) :
    (o.state F).Over f :=
  ⟨h.defined, fun c hc => (List.mem_append.1 hc).elim (h.letter c) (hF c)⟩

/-- A scheme stays over a formula when a formula within it is marked. -/
theorem Over.mark (h : o.Over f) (hg : g.Compound) (hw : f.Within g) : (o.mark g).Over f where
  defined := List.forall_mem_cons.2 ⟨⟨hg, hw⟩, h.defined⟩
  letter c hc l hl := (h.letter c hc l hl).mono fun _ => List.mem_cons_of_mem g

/-- The letters of a definition are the formula and those of the literals of its operands. -/
theorem var_of_mem_definition {c : Clause Formula} {l : Literal Formula} (hc : c ∈ definition f)
    (hl : l ∈ c) : l.var = f ∨ ∃ g ∈ operands f, l.var = g.literal.var := by
  cases f with
  | and fs | or fs =>
    rcases List.mem_append.1 hc with hc | hc
    · obtain ⟨g, hg, rfl⟩ := List.mem_map.1 hc
      rcases List.mem_pair.1 hl with rfl | rfl
      · exact .inl rfl
      · exact .inr ⟨g, hg, rfl⟩
    · rw [List.mem_singleton.1 hc] at hl
      rcases List.mem_cons.1 hl with rfl | hl
      · exact .inl rfl
      · obtain ⟨g, hg, rfl⟩ := List.mem_map.1 hl
        exact .inr ⟨g, hg, rfl⟩
  | atom | not | implies => cases hc

/-- If each formula can be defined over a formula, so can all of them in turn. -/
theorem Over.defineAll (h : o.Over f)
    (hfs : ∀ g ∈ fs, ∀ o : Scheme, o.Over f → Provides f [g] o (o.define g)) :
    Provides f fs o (o.defineAll fs) := by
  induction fs generalizing o with
  | nil => exact ⟨h, fun _ => id, by simp⟩
  | cons g fs ih =>
    have hg := hfs g List.mem_cons_self o h
    have hrest := ih hg.isOver fun g' hg' => hfs g' (List.mem_cons_of_mem g hg')
    refine ⟨hrest.isOver, fun g' hg' => hrest.defined g' (hg.defined g' hg'), ?_⟩
    exact List.forall_mem_cons.2
      ⟨(hg.letter g List.mem_cons_self).mono hrest.defined, hrest.letter⟩

/-- A compound formula can be defined over a formula if its operands can. -/
theorem Over.define_compound (h : o.Over f) (hg : g.Compound) (hw : f.Within g)
    (hops : ∀ g' ∈ operands g, ∀ o : Scheme, o.Over f → Provides f [g'] o (o.define g')) :
    Provides f [g] o (o.define g) := by
  have hliteral : g.literal.var = g := by cases hg <;> rfl
  have hletter {o' : Scheme} (hmem : g ∈ o'.defined) : ∀ g' ∈ [g], o'.Letter f g'.literal.var := by
    intro g' hg'
    rw [List.mem_singleton.1 hg', hliteral]
    exact .inl hmem
  rw [define_of_compound hg]
  split
  · next hmem => exact ⟨h, fun _ => id, hletter hmem⟩
  · -- The formula is marked before its operands are defined, so it is a letter of its definition.
    have hrest := (h.mark hg hw).defineAll hops
    have hmem := hrest.defined g List.mem_cons_self
    refine ⟨hrest.isOver.state fun c hc l hl => ?_,
      fun g' hg' => hrest.defined g' (List.mem_cons_of_mem g hg'), hletter hmem⟩
    rcases var_of_mem_definition hc hl with hl | ⟨g', hg', hl⟩
    · exact .inl (hl ▸ hmem)
    · exact hl ▸ hrest.letter g' hg'

/-- The definitions that a formula in negation normal form needs. -/
theorem Over.define (h : o.Over f) (hw : f.Within g) (hnormal : g.isNormal = true) :
    Provides f [g] o (o.define g) := by
  induction g generalizing o with
  | atom v =>
    exact ⟨h, fun _ => id, List.forall_mem_singleton.2 (.inr ⟨v, hw.mem_vars (by simp), rfl⟩)⟩
  | not g =>
    obtain ⟨v, rfl⟩ := Formula.isNormal_not.1 hnormal
    exact ⟨h, fun _ => id, List.forall_mem_singleton.2 (.inr ⟨v, hw.mem_vars (by simp), rfl⟩)⟩
  | and fs ih =>
    exact h.define_compound (.and fs) hw fun g hg o ho =>
      ih g hg ho (hw.operand hg) (Formula.isNormal_and.1 hnormal g hg)
  | or fs ih =>
    exact h.define_compound (.or fs) hw fun g hg o ho =>
      ih g hg ho (hw.operand hg) (Formula.isNormal_or.1 hnormal g hg)
  | implies g g' => simp at hnormal

/-- A scheme stays over a formula when formulas within it are asserted. -/
theorem Over.assert (h : o.Over f) (hfs : ∀ g ∈ fs, f.Within g ∧ g.isNormal = true) :
    (o.assert fs).Over f := by
  have hdef := h.defineAll fun g hg o ho => Over.define ho (hfs g hg).1 (hfs g hg).2
  refine hdef.isOver.state fun c hc l hl => ?_
  rw [List.mem_singleton.1 hc] at hl
  obtain ⟨g, hg, rfl⟩ := List.mem_map.1 hl
  exact hdef.letter g hg

/-- A scheme stays over a formula when clauses of formulas within it are asserted. -/
theorem Over.assertAll (h : o.Over f) {fss : List (List Formula)}
    (hfss : ∀ fs ∈ fss, ∀ g ∈ fs, f.Within g ∧ g.isNormal = true) : (o.assertAll fss).Over f := by
  induction fss generalizing o with
  | nil => exact h
  | cons fs fss ih =>
    exact ih (h.assert (hfss fs List.mem_cons_self)) fun gs hgs =>
      hfss gs (List.mem_cons_of_mem fs hgs)

end Scheme

/-- The letters of the scheme of a formula are compound formulas within it and its atoms. -/
theorem Formula.scheme_over {f : Formula} (hnormal : f.isNormal = true) : f.scheme.Over f := by
  have hempty : Scheme.Over f ⟨[], []⟩ := ⟨by simp, by simp⟩
  exact hempty.assertAll fun _ hfs _ => within_of_mem_conjuncts .refl hnormal hfs

end JudgmentAggregation
