import JudgmentAggregation.Proofs.Formula.Grammar

/-!
# The reader follows the grammar

Where an operand is due, the reader goes from one group to another, in which the operand has ended,
whatever stands around it. A derivation says which group that is (`Derives.read`), so the tokens of
a formula are accepted and give its tree. The other way round, a reader accounts for the tokens that
it has taken (`Reader.Covers`): behind an operand the tokens of a group are a formula, and where an
operand is due they are what may stand before one. Each token keeps the account
(`Reader.Covers.step`), so nothing else is accepted. Together, the reader gives a formula exactly if
the tokens derive it (`ofTokens?_eq_ok_iff`).
-/

namespace JudgmentAggregation

namespace Formula

open Token (Located)

variable {c : Chain} {p : Phrase} {f g : Formula} {fs gs : List Formula} {t : Token}
  {ts us : List Token} {l : Located} {ls : List Located}

namespace Chain

/-- The tree of a chain of operands. -/
def tree (c : Chain) : List Formula → Formula
  | [f] => f
  | fs => c.node fs

/-- Two or more operands make a chain. -/
theorem tree_eq_node (c : Chain) (h : 2 ≤ fs.length) : c.tree fs = c.node fs := by
  rw [tree.eq_def]
  split
  · simp at h
  · rfl

theorem ofConjuncts_eq_tree (fs : List Formula) : ofConjuncts fs = conjunction.tree fs := by
  rw [tree.eq_def, ofConjuncts.eq_def]
  rfl

theorem ofDisjuncts_eq_tree (fs : List Formula) : ofDisjuncts fs = disjunction.tree fs := by
  rw [tree.eq_def, ofDisjuncts.eq_def]
  rfl

/-- A chain has one list of operands. -/
theorem node_injective (h : c.node fs = c.node gs) : fs = gs := by
  cases c <;> cases h <;> rfl

end Chain

/-! ### Derivations are read -/

namespace Group

/-- The group in which the operand of a chain that was read last is complete. -/
def close : Chain → Group → Group
  | .conjunction, g => g.endDisjunction
  | .disjunction, g => g

/-- The group with some more operands of a chain. -/
def extend (c : Chain) (fs : List Formula) (g : Group) : Group :=
  match c with
  | .conjunction => { g with conjuncts := fs.reverse ++ g.conjuncts }
  | .disjunction => { g with disjuncts := fs.reverse ++ g.disjuncts }

/-- A group is **ready** for an operand of a chain when nothing of the operand has been read. -/
def Ready : Chain → Group → Prop
  | .conjunction, g => g.pending = 0 ∧ g.disjuncts = []
  | .disjunction, g => g.pending = 0

/-- Some tokens **lead** from a group in which an operand is due to one in which it has ended. -/
def Leads (ts : List Token) (g g' : Group) : Prop :=
  ∀ (outer : List Group) (ls rest : List Located), ls.map Located.token = ts →
    Reader.run ⟨g, outer, true⟩ (ls ++ rest) = Reader.run ⟨g', outer, false⟩ rest

variable {g₀ g₁ g₂ : Group}

/-- A group is extended by operands one after the other. -/
theorem extend_extend (c : Chain) (fs gs : List Formula) (g₀ : Group) :
    (g₀.extend c fs).extend c gs = g₀.extend c (fs ++ gs) := by
  cases c <;> simp [extend]

theorem Ready.extend (h : g₀.Ready c) (fs : List Formula) : (g₀.extend c fs).Ready c := by
  cases c <;> exact h

/-- A token between two operands. -/
theorem Leads.trans (h : Leads ts g₀ g₁)
    (hstep : ∀ outer l, l.token = t → Reader.step ⟨g₁, outer, false⟩ l = .ok ⟨g₂, outer, true⟩)
    {g₃ : Group} (h' : Leads us g₂ g₃) : Leads (ts ++ t :: us) g₀ g₃ := by
  intro outer ls rest hls
  obtain ⟨ls₁, ls₂, rfl, hls₁, hls₂⟩ := List.map_eq_append_iff.1 hls
  obtain ⟨l, ls₃, rfl, hl, hls₃⟩ := List.map_eq_cons_iff.1 hls₂
  rw [List.append_assoc, h outer ls₁ _ hls₁, List.cons_append, Reader.run, hstep outer l hl]
  exact h' outer ls₃ rest hls₃

/-- An operator closes the chain and makes an operand due. -/
theorem step_operator (c : Chain) (g₀ : Group) (outer : List Group) (h : l.token = c.operator) :
    Reader.step ⟨g₀, outer, false⟩ l = .ok ⟨g₀.close c, outer, true⟩ := by
  cases c <;> simp [Reader.step, Reader.operator, h, Chain.operator, close]

/-- The formula of a group in which a chain of conjuncts is complete. -/
theorem formula_of_close (h : g₁.close .conjunction = g₀.extend .conjunction fs)
    (hg₀ : g₀.conjuncts = []) : g₁.formula = match g₀.premise with
      | none => Chain.conjunction.tree fs
      | some f => .implies f (Chain.conjunction.tree fs) := by
  simp only [close, extend, hg₀, List.append_nil] at h
  have hend : g₁.endDisjunction.premise = g₀.premise := by rw [h]
  have hpremise : g₁.premise = g₀.premise := hend
  cases hp : g₀.premise <;>
    simp only [formula, h, hpremise.trans hp, List.reverse_reverse, Chain.ofConjuncts_eq_tree]

/-- Closing a conjunction leaves the disjuncts as they are. -/
theorem pending_of_close (h : g₁.close .conjunction = g₀.extend .conjunction fs) :
    g₁.pending = g₀.pending := by
  simp only [close, extend] at h
  have hpending : g₁.endDisjunction.pending = g₀.pending := by rw [h]
  exact hpending

end Group

open Formula.Group

/-- The groups that the tokens of a phrase lead to. -/
def Phrase.Read (ts : List Token) (f : Formula) : Phrase → Prop
  | .implication => ∀ position, ∃ g₁, Leads ts (start position) g₁ ∧ g₁.pending = 0 ∧ g₁.formula = f
  | .chain c => ∃ fs, c.tree fs = f ∧
      ∀ g₀ : Group, g₀.Ready c → ∃ g₁, Leads ts g₀ g₁ ∧ g₁.close c = g₀.extend c fs
  | .operands c => ∃ fs, 2 ≤ fs.length ∧ c.node fs = f ∧
      ∀ g₀ : Group, g₀.Ready c → ∃ g₁, Leads ts g₀ g₁ ∧ g₁.close c = g₀.extend c fs
  | .unary => ∀ g₀ : Group, Leads ts g₀ (g₀.push f)

/-- An operand that has been read is one more of its chain. -/
theorem Phrase.Read.operand (h : c.operand.Read ts f) {g₀ : Group} (hg₀ : g₀.Ready c) :
    ∃ g₁, Leads ts g₀ g₁ ∧ g₁.close c = g₀.extend c [f] := by
  cases c with
  | conjunction =>
    obtain ⟨fs, rfl, hread⟩ := h
    obtain ⟨hpending, hdisjuncts⟩ := hg₀
    obtain ⟨g₁, hleads, hclose⟩ := hread g₀ hpending
    refine ⟨g₁, hleads, ?_⟩
    rw [Group.close] at hclose
    rw [hclose]
    simp [Group.close, Group.extend, Group.endDisjunction, hdisjuncts, Chain.ofDisjuncts_eq_tree]
  | disjunction =>
    have hpending : g₀.pending = 0 := hg₀
    refine ⟨g₀.push f, h g₀, ?_⟩
    simp [Group.close, Group.extend, Group.push, negations, hpending]

/-- Two parts of a chain with the operator between them. -/
theorem Phrase.Read.more (hg : c.operand.Read us g) {g₀ : Group} (hg₀ : g₀.Ready c)
    (h : ∃ g₁, Leads ts g₀ g₁ ∧ g₁.close c = g₀.extend c fs) :
    ∃ g₂, Leads (ts ++ c.operator :: us) g₀ g₂ ∧ g₂.close c = g₀.extend c (fs ++ [g]) := by
  obtain ⟨g₁, hleads₁, hclose₁⟩ := h
  obtain ⟨g₂, hleads₂, hclose₂⟩ := hg.operand (hg₀.extend fs)
  refine ⟨g₂, hleads₁.trans (fun outer l hl => ?_) hleads₂, ?_⟩
  · rw [step_operator c g₁ outer hl, hclose₁]
  · rw [hclose₂, extend_extend]

/-- What a derivation says is what the reader does. -/
theorem Derives.read (h : Derives p ts f) : p.Read ts f := by
  induction h with
  | conclusion _ ih =>
    obtain ⟨fs, rfl, hread⟩ := ih
    intro position
    obtain ⟨g₁, hleads, hclose⟩ := hread (start position) ⟨rfl, rfl⟩
    exact ⟨g₁, hleads, pending_of_close hclose, formula_of_close hclose rfl⟩
  | @implies ts us f g _ _ ihf ihg =>
    obtain ⟨fs, rfl, hread⟩ := ihg
    intro position
    obtain ⟨g₁, hleads₁, hpending, rfl⟩ := ihf position
    obtain ⟨g₂, hleads₂, hclose⟩ := hread g₁.endPremise ⟨hpending, rfl⟩
    refine ⟨g₂, hleads₁.trans (fun outer l hl => ?_) hleads₂, ?_, formula_of_close hclose rfl⟩
    · simp [Reader.step, Reader.operator, hl]
    · rw [pending_of_close hclose, ← hpending]
      rfl
  | @single c ts f _ ih => exact ⟨[f], rfl, fun g₀ hg₀ => ih.operand hg₀⟩
  | @several c ts f _ ih =>
    obtain ⟨fs, hlength, rfl, hread⟩ := ih
    exact ⟨fs, c.tree_eq_node hlength, hread⟩
  | @pair c ts us f g _ _ ihf ihg =>
    exact ⟨[f, g], Nat.le_refl 2, rfl, fun g₀ hg₀ => ihg.more hg₀ (ihf.operand hg₀)⟩
  | @more c ts us fs g _ _ ihfs ihg =>
    obtain ⟨fs', hlength, hnode, hread⟩ := ihfs
    -- The operands are those of the chain so far, since a chain has only one list of them.
    obtain rfl := Chain.node_injective hnode
    refine ⟨fs' ++ [g], ?_, rfl, fun g₀ hg₀ => ihg.more hg₀ (hread g₀ hg₀)⟩
    rw [List.length_append]
    omega
  | @not ts f _ ih =>
    intro g₀ outer ls rest hls
    obtain ⟨l, ls, rfl, hl, hls⟩ := List.map_eq_cons_iff.1 hls
    have hstep : Reader.step ⟨g₀, outer, true⟩ l = .ok ⟨g₀.negate, outer, true⟩ := by
      simp [Reader.step, Reader.operand, hl]
    rw [List.cons_append, Reader.run, hstep]
    exact ih g₀.negate outer ls rest hls
  | atom name =>
    intro g₀ outer ls rest hls
    obtain ⟨l, rfl, hl⟩ := List.map_eq_singleton_iff.1 hls
    simp [Reader.run, Reader.step, Reader.operand, hl]
  | @parens ts f _ ih =>
    intro g₀ outer ls rest hls
    obtain ⟨ls₁, ls₂, rfl, hls₁, hls₂⟩ := List.map_eq_append_iff.1 hls
    obtain ⟨l, ls₁, rfl, hl, hls₁⟩ := List.map_eq_cons_iff.1 hls₁
    obtain ⟨r, rfl, hr⟩ := List.map_eq_singleton_iff.1 hls₂
    -- The group between the parentheses is read behind the one that is put aside.
    obtain ⟨g₁, hleads, -, rfl⟩ := ih l.position
    have hopen : Reader.step ⟨g₀, outer, true⟩ l =
        .ok ⟨start l.position, g₀ :: outer, true⟩ := by
      simp [Reader.step, Reader.operand, hl]
    have hclose : Reader.step ⟨g₁, g₀ :: outer, false⟩ r =
        .ok ⟨g₀.push g₁.formula, outer, false⟩ := by
      simp [Reader.step, Reader.operator, hr]
    rw [List.append_assoc, List.cons_append, Reader.run, hopen]
    dsimp only
    rw [hleads _ ls₁ _ hls₁, List.singleton_append, Reader.run, hclose]

/-! ### What is read is derived -/

/-- The tokens of some operands of a chain, each with the operator behind it. The last operand comes
first. -/
inductive Operands (c : Chain) : List Formula → List Token → Prop
  | nil : Operands c [] []
  | cons {f : Formula} {fs : List Formula} {ts us : List Token} (hfs : Operands c fs ts)
    (hf : Derives c.operand us f) : Operands c (f :: fs) (ts ++ us ++ [c.operator])

/-- The tokens of a premise with the arrow behind it. -/
inductive Premise : Option Formula → List Token → Prop
  | none : Premise none []
  | some {f : Formula} {ts : List Token} (h : Derives .implication ts f) :
    Premise (some f) (ts ++ [.implies])

/-- Negations may be put before what is derived. -/
theorem derives_negations (h : Derives .unary ts f) (n : Nat) :
    Derives .unary (List.replicate n .not ++ ts) (negations n f) := by
  induction n generalizing f ts with
  | zero => exact h
  | succ n ih =>
    rw [List.replicate_succ', List.append_assoc]
    exact ih h.not

/-- Operands with one more before and one more behind are derived as a chain. -/
theorem Operands.derives_operands {vs : List Token} (hfs : Operands c fs ts)
    (hf : Derives c.operand us f) (hg : Derives c.operand vs g) :
    Derives (.operands c) (ts ++ us ++ c.operator :: vs) (c.node ((f :: fs).reverse ++ [g])) := by
  induction hfs generalizing f us g vs with
  | nil => exact hf.pair hg
  | cons _ hf' ih =>
    have hmore := (ih hf' hf).more hg
    simpa using hmore

/-- Some operands with their operators and one operand more are a chain. -/
theorem Operands.derives (hfs : Operands c fs ts) (hf : Derives c.operand us f) :
    Derives (.chain c) (ts ++ us) (c.tree (f :: fs).reverse) := by
  cases hfs with
  | nil => exact .single hf
  | cons hfs hf' =>
    rw [c.tree_eq_node (by simp), List.append_assoc, List.singleton_append]
    have hoperands := hfs.derives_operands hf' hf
    exact .several (by simpa using hoperands)

namespace Group

variable {g₀ : Group}

/-- A group in which an operand is due **opens** with some tokens: a premise, operands of the
conjunction and operands of its last disjunction, each with what stands behind it, and the pending
negations. -/
def Opens (g₀ : Group) (ts : List Token) : Prop :=
  ∃ ps cs ds, Premise g₀.premise ps ∧ Operands .conjunction g₀.conjuncts cs ∧
    Operands .disjunction g₀.disjuncts ds ∧
      ts = ps ++ cs ++ ds ++ List.replicate g₀.pending .not

/-- A group in which an operand has ended **holds** some tokens: as before, but with the last
operand in place of the pending negations. -/
def Holds (g₀ : Group) (ts : List Token) : Prop :=
  ∃ ps cs ds us f fs, Premise g₀.premise ps ∧ Operands .conjunction g₀.conjuncts cs ∧
    Operands .disjunction fs ds ∧ Derives .unary us f ∧ g₀.disjuncts = f :: fs ∧ g₀.pending = 0 ∧
      ts = ps ++ cs ++ ds ++ us

theorem opens_start (position : Nat) : (start position).Opens [] :=
  ⟨[], [], [], .none, .nil, .nil, rfl⟩

theorem Opens.negate (h : g₀.Opens ts) : g₀.negate.Opens (ts ++ [.not]) := by
  obtain ⟨ps, cs, ds, hps, hcs, hds, rfl⟩ := h
  refine ⟨ps, cs, ds, hps, hcs, hds, ?_⟩
  rw [negate, List.replicate_succ', List.append_assoc _ _ [_]]

theorem Opens.push (h : g₀.Opens ts) (hf : Derives .unary us f) : (g₀.push f).Holds (ts ++ us) := by
  obtain ⟨ps, cs, ds, hps, hcs, hds, rfl⟩ := h
  refine ⟨ps, cs, ds, _, _, _, hps, hcs, hds, derives_negations hf g₀.pending, rfl, rfl, ?_⟩
  rw [List.append_assoc _ (List.replicate _ _)]

theorem Holds.or (h : g₀.Holds ts) : g₀.Opens (ts ++ [.or]) := by
  obtain ⟨ps, cs, ds, us, f, fs, hps, hcs, hds, hf, hdisjuncts, hpending, rfl⟩ := h
  refine ⟨ps, cs, _, hps, hcs, hdisjuncts ▸ hds.cons hf, ?_⟩
  simp [hpending, Chain.operator]

/-- The disjunction that ends with the operand. -/
theorem Holds.disjunction (h : g₀.Holds ts) :
    ∃ ps cs us, Premise g₀.premise ps ∧ Operands .conjunction g₀.conjuncts cs ∧
      Derives (.chain .disjunction) us (ofDisjuncts g₀.disjuncts.reverse) ∧ g₀.pending = 0 ∧
        ts = ps ++ cs ++ us := by
  obtain ⟨ps, cs, ds, us, f, fs, hps, hcs, hds, hf, hdisjuncts, hpending, rfl⟩ := h
  refine ⟨ps, cs, ds ++ us, hps, hcs, ?_, hpending, ?_⟩
  · rw [hdisjuncts, Chain.ofDisjuncts_eq_tree]
    exact hds.derives hf
  · rw [List.append_assoc (ps ++ cs)]

theorem Holds.endDisjunction (h : g₀.Holds ts) : g₀.endDisjunction.Opens (ts ++ [.and]) := by
  obtain ⟨ps, cs, us, hps, hcs, hf, hpending, rfl⟩ := h.disjunction
  refine ⟨ps, _, [], hps, hcs.cons hf, .nil, ?_⟩
  simp [Group.endDisjunction, hpending, Chain.operator]

/-- The tokens of a group that ends here are its formula. -/
theorem Holds.formula (h : g₀.Holds ts) : Derives .implication ts g₀.formula := by
  obtain ⟨ps, cs, us, hps, hcs, hf, -, rfl⟩ := h.disjunction
  have hconclusion := hcs.derives hf
  rw [← Chain.ofConjuncts_eq_tree] at hconclusion
  rw [Group.formula]
  generalize g₀.premise = premise at hps
  cases hps with
  | none => exact .conclusion hconclusion
  | some hpremise =>
    rw [List.append_assoc, List.append_assoc, List.singleton_append]
    exact hpremise.implies hconclusion

theorem Holds.endPremise (h : g₀.Holds ts) : g₀.endPremise.Opens (ts ++ [.implies]) := by
  obtain ⟨_, _, _, _, _, _, _, _, _, _, _, hpending, _⟩ := id h
  refine ⟨_, [], [], .some h.formula, .nil, .nil, ?_⟩
  simp [Group.endPremise, hpending]

end Group

/-- The groups around a parenthesis and the tokens that they open with. -/
inductive Opened : List Group → List Token → Prop
  | nil : Opened [] []
  | cons {g₀ : Group} {gs : List Group} {ts us : List Token} (hgs : Opened gs ts)
    (hg₀ : g₀.Opens us) : Opened (g₀ :: gs) (ts ++ us ++ [.leftParen])

namespace Reader

variable {r r' : Reader}

/-- A reader **covers** the tokens that it has taken. -/
def Covers (r : Reader) (ts : List Token) : Prop :=
  ∃ us vs, Opened r.outer us ∧ (if r.operandDue then r.current.Opens vs else r.current.Holds vs) ∧
    ts = us ++ vs

theorem covers_start : start.Covers [] :=
  ⟨[], [], .nil, opens_start 0, rfl⟩

/-- Where an operand is due. -/
theorem Covers.operand (h : r.Covers ts) (hdue : r.operandDue = true) (hr : r.operand l = .ok r') :
    r'.Covers (ts ++ [l.token]) := by
  obtain ⟨us, vs, hus, hvs, rfl⟩ := h
  rw [hdue, if_pos rfl] at hvs
  rw [Reader.operand] at hr
  split at hr <;> cases hr
  · next ht =>
    refine ⟨us, _, hus, ?_, List.append_assoc ..⟩
    rw [ht, hdue]
    exact hvs.negate
  · next name ht =>
    refine ⟨us, _, hus, ?_, List.append_assoc ..⟩
    rw [ht]
    exact hvs.push (.atom name)
  · next ht =>
    refine ⟨_, [], hus.cons hvs, opens_start _, ?_⟩
    rw [ht, List.append_nil]

/-- Behind an operand. -/
theorem Covers.operator (h : r.Covers ts) (hdue : r.operandDue = false)
    (hr : r.operator l = .ok r') : r'.Covers (ts ++ [l.token]) := by
  obtain ⟨us, vs, hus, hvs, rfl⟩ := h
  rw [hdue, if_neg Bool.false_ne_true] at hvs
  rw [Reader.operator] at hr
  split at hr <;> cases hr
  · next ht =>
    refine ⟨us, _, hus, ?_, List.append_assoc ..⟩
    rw [ht]
    exact hvs.or
  · next ht =>
    refine ⟨us, _, hus, ?_, List.append_assoc ..⟩
    rw [ht]
    exact hvs.endDisjunction
  · next ht =>
    refine ⟨us, _, hus, ?_, List.append_assoc ..⟩
    rw [ht]
    exact hvs.endPremise
  · next g₀ gs ht houter =>
    rw [houter] at hus
    obtain _ | ⟨hus, hg₀⟩ := hus
    refine ⟨_, _, hus, hg₀.push hvs.formula.parens, ?_⟩
    rw [ht]
    simp

/-- The next token keeps the account. -/
theorem Covers.step (h : r.Covers ts) (hr : r.step l = .ok r') : r'.Covers (ts ++ [l.token]) := by
  rw [Reader.step] at hr
  split at hr
  · next hdue => exact h.operand hdue hr
  · next hdue => exact h.operator (Bool.eq_false_iff.2 hdue) hr

/-- The reader covers the tokens that it reads. -/
theorem Covers.run (h : r.Covers ts) (hr : r.run ls = .ok r') :
    r'.Covers (ts ++ ls.map Located.token) := by
  induction ls generalizing r ts with
  | nil =>
    cases hr
    simpa using h
  | cons l ls ih =>
    rw [Reader.run] at hr
    split at hr
    · next r₁ hr₁ =>
      rw [List.map_cons, ← List.singleton_append, ← List.append_assoc]
      exact ih (h.step hr₁) hr
    · cases hr

end Reader

/-! ### The formula of a list of tokens -/

/-- The reader that the tokens of a formula lead to. -/
theorem run_of_ofTokens? {length : Nat} (h : ofTokens? length ls = .ok f) :
    ∃ r, Reader.start.run ls = .ok r ∧ r.finish length = .ok f := by
  rw [ofTokens?] at h
  split at h
  · cases h
  · split at h
    · next r hr => exact ⟨r, hr, h⟩
    · cases h

/-- Tokens that lead behind an operand at the top level are a formula. -/
theorem ofTokens?_of_run {g₁ : Group} (length : Nat)
    (h : Reader.start.run ls = .ok ⟨g₁, [], false⟩) : ofTokens? length ls = .ok g₁.formula := by
  have hne : ls.isEmpty = false := by
    -- Before the first token an operand is due.
    cases ls with
    | nil => cases h
    | cons => rfl
  rw [ofTokens?, hne, if_neg Bool.false_ne_true, h]
  rfl

/-- The reader gives a formula exactly if the tokens derive it. -/
theorem ofTokens?_eq_ok_iff {length : Nat} :
    ofTokens? length ls = .ok f ↔ Derives .implication (ls.map Located.token) f := by
  constructor
  · intro h
    obtain ⟨r, hr, h⟩ := run_of_ofTokens? h
    obtain ⟨us, vs, hus, hvs, hts⟩ := Reader.covers_start.run hr
    rw [Reader.finish] at h
    split at h
    · cases h
    · next hdue =>
      split at h <;> cases h
      next houter =>
      rw [houter] at hus
      cases hus
      rw [if_neg hdue] at hvs
      rw [List.nil_append, List.nil_append] at hts
      exact hts ▸ hvs.formula
  · intro h
    obtain ⟨g₁, hleads, -, rfl⟩ := h.read 0
    have hrun : Reader.start.run (ls ++ []) = .ok ⟨g₁, [], false⟩ := hleads [] ls [] rfl
    rw [List.append_nil] at hrun
    exact ofTokens?_of_run length hrun

end Formula

end JudgmentAggregation
