import JudgmentAggregation.Error
import JudgmentAggregation.Proofs.Formula.Basic

/-!
# The atoms of formula texts

A **word** is a non-empty sequence of ASCII letters and digits. The scanner makes atoms of words
only (`Token.scan?_proper`), and the reader puts no other atoms into the formula that it returns
(`Formula.parse_readable`). So nothing that starts with an underscore is an atom of a text.
-/

namespace JudgmentAggregation

/-- A **word** is a non-empty sequence of ASCII letters and digits. -/
def IsWord (name : String) : Prop :=
  name ≠ "" ∧ ∀ c ∈ name.toList, c.isAlphanum = true

/-- No word starts with an underscore. -/
theorem IsWord.head?_ne {name : String} (h : IsWord name) : name.toList.head? ≠ some '_' := by
  intro hhead
  have hmem : '_' ∈ name.toList := List.mem_of_head? hhead
  have hfalse : '_'.isAlphanum = false := by decide
  exact absurd (h.2 _ hmem) (by rw [hfalse]; decide)

namespace Token

/-- A token is **proper** when it is a word if it is an atom. -/
def Proper (t : Located) : Prop :=
  ∀ name, t.token = .atom name → IsWord name

variable {p : Nat} {word cs : List Char} {done ts : List Located}

/-- Tokens stay proper when a word is put before them. -/
theorem proper_endWord (hword : ∀ c ∈ word, isAtomChar c = true) (hdone : ∀ t ∈ done, Proper t) :
    ∀ t ∈ endWord p word done, Proper t := by
  intro t ht
  rw [endWord] at ht
  split at ht
  · exact hdone t ht
  · next hne =>
    rcases List.mem_cons.1 ht with rfl | ht
    · intro name hname
      cases hname
      refine ⟨?_, ?_⟩
      · intro hempty
        have hlist := congrArg String.toList hempty
        simp at hlist
        exact hne (by simp [hlist])
      · intro c hc
        exact hword c (by simpa using hc)
    · exact hdone t ht

/-- One more token that is not an atom, behind the word that ends there. -/
theorem proper_symbol {q : Nat} {t : Token} (hword : ∀ c ∈ word, isAtomChar c = true)
    (hdone : ∀ t ∈ done, Proper t) (ht : ∀ name, t ≠ .atom name) :
    ∀ u ∈ (⟨q, t⟩ : Located) :: endWord p word done, Proper u := by
  intro u hu
  rcases List.mem_cons.1 hu with rfl | hu
  · exact fun name hname => (ht name hname).elim
  · exact proper_endWord hword hdone u hu

/-- No symbol stands for an atom. -/
theorem symbol?_ne_atom {c : Char} {t : Token} (h : symbol? c = some t) (name : String) :
    t ≠ .atom name := by
  rintro rfl
  revert h
  rw [symbol?.eq_def]
  split <;> simp

/-- A scan that goes on from proper tokens finds proper ones. -/
theorem scanFrom?_proper (hword : ∀ c ∈ word, isAtomChar c = true)
    (hdone : ∀ t ∈ done, Proper t) (h : scanFrom? p word done cs = .ok ts) :
    ∀ t ∈ ts, Proper t := by
  induction p, word, done, cs using scanFrom?.induct with
  | case1 p word done =>
    cases h
    intro t ht
    exact proper_endWord hword hdone t (List.mem_reverse.1 ht)
  | case2 p word done cs ih =>
    exact ih (by simp) (proper_symbol hword hdone (by simp)) h
  | case3 p word done c cs hnot hc ih =>
    rw [scanFrom?, if_pos hc] at h
    · refine ih ?_ hdone h
      intro d hd
      rcases List.mem_cons.1 hd with rfl | hd
      · exact hc
      · exact hword d hd
    · exact hnot
  | case4 p word done c cs hnot hc hblank ih =>
    rw [scanFrom?, if_neg hc, if_pos hblank] at h
    · exact ih (by simp) (proper_endWord hword hdone) h
    · exact hnot
  | case5 p word done c cs hnot hc hblank t ht ih =>
    rw [scanFrom?, if_neg hc, if_neg hblank, ht] at h
    · exact ih (by simp) (proper_symbol hword hdone (symbol?_ne_atom ht)) h
    · exact hnot
  | case6 p word done c cs hnot hc hblank ht =>
    rw [scanFrom?, if_neg hc, if_neg hblank, ht] at h
    · cases h
    · exact hnot

/-- The atoms of a text are words. -/
theorem scan?_proper {text : String} (h : scan? text = .ok ts) : ∀ t ∈ ts, Proper t :=
  scanFrom?_proper (by simp) (by simp) h

end Token

namespace Formula

/-- A formula is **readable** when its atoms are words. -/
def Readable (f : Formula) : Prop :=
  ∀ v ∈ f.vars, IsWord v

variable {f g : Formula} {fs : List Formula}

theorem readable_negations (hf : f.Readable) (n : Nat) : (negations n f).Readable := by
  induction n generalizing f with
  | zero => exact hf
  | succ n ih => exact ih hf

theorem readable_and (h : ∀ f ∈ fs, f.Readable) : (and fs).Readable := by
  intro v hv
  obtain ⟨f, hf, hv⟩ := mem_vars_and.1 hv
  exact h f hf v hv

theorem readable_or (h : ∀ f ∈ fs, f.Readable) : (or fs).Readable :=
  readable_and h

theorem readable_implies (hf : f.Readable) (hg : g.Readable) : (f.implies g).Readable := by
  intro v hv
  rcases mem_vars_implies.1 hv with hv | hv
  · exact hf v hv
  · exact hg v hv

theorem readable_ofDisjuncts (h : ∀ f ∈ fs, f.Readable) : (ofDisjuncts fs).Readable := by
  rw [ofDisjuncts.eq_def]
  split
  · exact h _ List.mem_cons_self
  · exact readable_or h

theorem readable_ofConjuncts (h : ∀ f ∈ fs, f.Readable) : (ofConjuncts fs).Readable := by
  rw [ofConjuncts.eq_def]
  split
  · exact h _ List.mem_cons_self
  · exact readable_and h

/-- A group is **readable** when the formulas in it are. -/
structure Group.Readable (g : Group) : Prop where
  disjuncts : ∀ f ∈ g.disjuncts, f.Readable
  conjuncts : ∀ f ∈ g.conjuncts, f.Readable
  premise : ∀ f ∈ g.premise, f.Readable

namespace Group

variable {g : Group}

theorem readable_start (position : Nat) : (start position).Readable :=
  ⟨by simp [start], by simp [start], by simp [start]⟩

theorem Readable.negate (h : g.Readable) : g.negate.Readable :=
  ⟨h.disjuncts, h.conjuncts, h.premise⟩

theorem Readable.push (h : g.Readable) (hf : f.Readable) : (g.push f).Readable := by
  refine ⟨?_, h.conjuncts, h.premise⟩
  intro f' hf'
  rcases List.mem_cons.1 hf' with rfl | hf'
  · exact readable_negations hf g.pending
  · exact h.disjuncts f' hf'

theorem Readable.endDisjunction (h : g.Readable) : g.endDisjunction.Readable := by
  refine ⟨by simp [Group.endDisjunction], ?_, h.premise⟩
  intro f hf
  rcases List.mem_cons.1 hf with rfl | hf
  · exact readable_ofDisjuncts fun f hf => h.disjuncts f (List.mem_reverse.1 hf)
  · exact h.conjuncts f hf

theorem Readable.formula (h : g.Readable) : g.formula.Readable := by
  have hconclusion : (ofConjuncts g.endDisjunction.conjuncts.reverse).Readable :=
    readable_ofConjuncts fun f hf => h.endDisjunction.conjuncts f (List.mem_reverse.1 hf)
  rw [Group.formula]
  split
  · exact hconclusion
  · next f hf => exact readable_implies (h.premise f hf) hconclusion

theorem Readable.endPremise (h : g.Readable) : g.endPremise.Readable := by
  refine ⟨by simp [Group.endPremise], by simp [Group.endPremise], ?_⟩
  intro f hf
  cases hf
  exact h.formula

end Group

/-- A reader is **readable** when its groups are. -/
structure Reader.Readable (r : Reader) : Prop where
  current : r.current.Readable
  outer : ∀ g ∈ r.outer, g.Readable

namespace Reader

variable {r r' : Reader} {t : Token.Located} {ts : List Token.Located}

theorem Readable.operand (h : r.Readable) (ht : Token.Proper t) (hr : r.operand t = .ok r') :
    r'.Readable := by
  rw [Reader.operand] at hr
  split at hr <;> cases hr
  · exact ⟨h.current.negate, h.outer⟩
  · next name hname =>
    refine ⟨h.current.push ?_, h.outer⟩
    intro v hv
    rw [mem_vars_atom.1 hv]
    exact ht name hname
  · refine ⟨Group.readable_start _, ?_⟩
    intro g hg
    rcases List.mem_cons.1 hg with rfl | hg
    · exact h.current
    · exact h.outer g hg

theorem Readable.operator (h : r.Readable) (hr : r.operator t = .ok r') : r'.Readable := by
  rw [Reader.operator] at hr
  split at hr <;> cases hr
  · exact ⟨h.current, h.outer⟩
  · exact ⟨h.current.endDisjunction, h.outer⟩
  · exact ⟨h.current.endPremise, h.outer⟩
  · next g gs _ hgs =>
    have houter : ∀ g' ∈ g :: gs, g'.Readable := hgs ▸ h.outer
    exact ⟨(houter g List.mem_cons_self).push h.current.formula,
      fun g' hg' => houter g' (List.mem_cons_of_mem _ hg')⟩

/-- A reader stays readable from one token to the next. -/
theorem Readable.step (h : r.Readable) (ht : Token.Proper t) (hr : r.step t = .ok r') :
    r'.Readable := by
  rw [Reader.step] at hr
  split at hr
  · exact h.operand ht hr
  · exact h.operator hr

theorem Readable.run (h : r.Readable) (hts : ∀ t ∈ ts, Token.Proper t) (hr : r.run ts = .ok r') :
    r'.Readable := by
  induction ts generalizing r with
  | nil =>
    cases hr
    exact h
  | cons t ts ih =>
    rw [Reader.run] at hr
    split at hr
    · next r₁ hr₁ =>
      exact ih (h.step (hts t List.mem_cons_self) hr₁)
        (fun u hu => hts u (List.mem_cons_of_mem _ hu)) hr
    · cases hr

end Reader

/-- The atoms of a formula that a text says are words. -/
theorem parse_readable {text : String} (h : Formula.parse text = .ok f) : f.Readable := by
  rw [Formula.parse, parse?] at h
  split at h
  · next ts hts =>
    rw [ofTokens?] at h
    split at h
    · cases h
    · split at h
      · next r hr =>
        have hreadable : r.Readable :=
          Reader.Readable.run ⟨Group.readable_start 0, by simp [Reader.start]⟩
            (Token.scan?_proper hts) hr
        rw [Reader.finish] at h
        split at h
        · cases h
        · split at h <;> cases h
          exact hreadable.current.formula
      · cases h
  · cases h

end Formula

end JudgmentAggregation
