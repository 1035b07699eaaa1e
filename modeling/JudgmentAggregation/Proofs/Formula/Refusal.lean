import JudgmentAggregation.Proofs.Formula.Parse
import JudgmentAggregation.Proofs.Formula.Position

/-!
# Where a text is refused

Some tokens are **viable** when a formula starts with them (`Formula.Viable`). The reader takes the
tokens of a text as long as they are viable (`Formula.viable_iff`), for whatever it has taken, an
operand and closing parentheses make a formula of it. It also knows the parentheses that are open:
each of its groups starts at one of them, and the tokens behind the last one are matched
(`Formula.Nested`). So a text that is no formula is refused at one offset, which the grammar tells
(`Formula.RefusedAt`), and this offset is on a character boundary (`Formula.parse_error_exact`).
-/

namespace JudgmentAggregation

namespace Token

/-- A token **calls for an operand** when an operand has to stand behind it. -/
def callsForOperand : Token → Bool
  | .atom _ | .rightParen => false
  | .not | .and | .or | .implies | .leftParen => true

/-- The parentheses among some tokens are **matched**. -/
inductive Matched : List Token → Prop
  | nil : Matched []
  | other {ts : List Token} {t : Token} (hts : Matched ts) (hleft : t ≠ .leftParen)
    (hright : t ≠ .rightParen) : Matched (ts ++ [t])
  | parens {ts us : List Token} (hts : Matched ts) (hus : Matched us) :
    Matched (ts ++ .leftParen :: us ++ [.rightParen])

theorem Matched.append {ts us : List Token} (hts : Matched ts) (hus : Matched us) :
    Matched (ts ++ us) := by
  induction hus with
  | nil => rwa [List.append_nil]
  | other _ hleft hright ih =>
    rw [← List.append_assoc]
    exact ih.other hleft hright
  | parens _ hus ih _ =>
    rw [← List.append_assoc, ← List.append_assoc]
    exact ih.parens hus

end Token

namespace Formula

open Token (Located Matched Cut StopsAt)

variable {g g' : Group} {gs : List Group} {r r₁ r' : Reader} {l : Located} {ks ls ms : List Located}
  {ts us : List Token} {text : String} {p : Nat} {e : SyntaxError}

/-- Some tokens are **viable** when the text of a formula starts with them. -/
def Viable (ts : List Token) : Prop :=
  ∃ (text : String) (us : List Token) (f : Formula),
    Token.Spells text.toList (ts ++ us) ∧ Derives .implication (ts ++ us) f

/-- The offsets at which a text is **refused**: that of the first character that starts no token; in
a text without tokens the start; that of the last one of the fewest tokens that no formula starts
with; the end, if an operand is missing there; and that of the innermost parenthesis that is not
closed. -/
inductive RefusedAt (text : String) : Nat → Prop
  | character {p : Nat} {c : Char} (h : StopsAt text p c) : RefusedAt text p
  | empty (h : Cut text []) : RefusedAt text 0
  | token {ks ls : List Located} {l : Located} (h : Cut text (ks ++ l :: ls))
    (hks : ∀ js, js <+: ks → Viable (js.map Located.token))
    (hl : ¬ Viable ((ks ++ [l]).map Located.token)) : RefusedAt text l.position
  | operand {ls : List Located} {m : Located} (h : Cut text ls)
    (hviable : Viable (ls.map Located.token)) (hlast : ls.getLast? = some m)
    (hm : m.token.callsForOperand = true) : RefusedAt text text.utf8ByteSize
  | paren {ks ls : List Located} {l m : Located} (h : Cut text (ks ++ l :: ls))
    (hviable : Viable ((ks ++ l :: ls).map Located.token))
    (hlast : (ks ++ l :: ls).getLast? = some m) (hm : m.token.callsForOperand = false)
    (hl : l.token = .leftParen) (hls : Matched (ls.map Located.token)) : RefusedAt text l.position

/-! ### One token -/

namespace Reader

/-- Two readers are in the **same group** when it starts at the same place for both, inside the same
groups. -/
def SameGroup (r r' : Reader) : Prop :=
  r'.current.position = r.current.position ∧ r'.outer = r.outer

theorem SameGroup.refl (r : Reader) : r.SameGroup r :=
  ⟨rfl, rfl⟩

theorem SameGroup.trans (h : r.SameGroup r₁) (h' : r₁.SameGroup r') : r.SameGroup r' :=
  ⟨h'.1.trans h.1, h'.2.trans h.2⟩

/-- The reader stays in its group, or an opening parenthesis starts a group in it, or a closing one
ends it. -/
theorem step_cases (h : r.step l = .ok r') :
    l.token ≠ .leftParen ∧ l.token ≠ .rightParen ∧ r.SameGroup r' ∨
    l.token = .leftParen ∧ r' = ⟨Group.start l.position, r.current :: r.outer, true⟩ ∨
    l.token = .rightParen ∧
      ∃ g gs, r.outer = g :: gs ∧ r' = ⟨g.push r.current.formula, gs, false⟩ := by
  rw [step] at h
  split at h
  · rw [operand] at h
    split at h <;> cases h
    · next ht => exact .inl ⟨by simp [ht], by simp [ht], rfl, rfl⟩
    · next ht => exact .inl ⟨by simp [ht], by simp [ht], rfl, rfl⟩
    · next ht => exact .inr (.inl ⟨ht, rfl⟩)
  · rw [operator] at h
    split at h <;> cases h
    · next ht => exact .inl ⟨by simp [ht], by simp [ht], rfl, rfl⟩
    · next ht => exact .inl ⟨by simp [ht], by simp [ht], rfl, rfl⟩
    · next ht => exact .inl ⟨by simp [ht], by simp [ht], rfl, rfl⟩
    · next g gs ht houter => exact .inr (.inr ⟨ht, g, gs, houter, rfl⟩)

/-- A left parenthesis opens a group, in which an operand is due. -/
theorem step_leftParen (h : r.step l = .ok r') (hl : l.token = .leftParen) :
    r' = ⟨Group.start l.position, r.current :: r.outer, true⟩ := by
  obtain ⟨hleft, -⟩ | ⟨-, hr'⟩ | ⟨ht, -⟩ := step_cases h
  · exact absurd hl hleft
  · exact hr'
  · rw [hl] at ht
    cases ht

/-- A right parenthesis ends the group, whose formula becomes an operand of the one around it. -/
theorem step_rightParen (h : r.step l = .ok r') (hl : l.token = .rightParen) :
    ∃ g gs, r.outer = g :: gs ∧ r' = ⟨g.push r.current.formula, gs, false⟩ := by
  obtain ⟨-, hright, -⟩ | ⟨ht, -⟩ | ⟨-, hr'⟩ := step_cases h
  · exact absurd hl hright
  · rw [hl] at ht
    cases ht
  · exact hr'

/-- An operand is due behind a token that calls for one. -/
theorem step_operandDue (h : r.step l = .ok r') : r'.operandDue = l.token.callsForOperand := by
  rw [step] at h
  split at h
  · next hdue =>
    rw [operand] at h
    split at h <;> cases h
    · next ht => rw [ht]; exact hdue
    · next ht => rw [ht]; rfl
    · next ht => rw [ht]; rfl
  · rw [operator] at h
    split at h <;> cases h
    · next ht => rw [ht]; rfl
    · next ht => rw [ht]; rfl
    · next ht => rw [ht]; rfl
    · next ht _ => rw [ht]; rfl

/-- A token is refused where it stands. -/
theorem step_error (h : r.step l = .error e) : e.position = l.position := by
  rw [step] at h
  split at h
  · rw [operand] at h
    split at h <;> cases h
    rfl
  · rw [operator] at h
    split at h <;> cases h <;> rfl

/-! ### Several tokens -/

theorem run_append (r : Reader) (ls ms : List Located) :
    r.run (ls ++ ms) = (r.run ls).bind fun r' => r'.run ms := by
  induction ls generalizing r with
  | nil => rfl
  | cons l ls ih =>
    rw [List.cons_append, run, run]
    cases r.step l with
    | ok r' => exact ih r'
    | error e => rfl

theorem run_append_of_ok (h : r.run ls = .ok r') : r.run (ls ++ ms) = r'.run ms := by
  rw [run_append, h]
  rfl

/-- What a reader takes, it takes from the start on. -/
theorem run_of_append (h : r.run (ls ++ ms) = .ok r') :
    ∃ r₁, r.run ls = .ok r₁ ∧ r₁.run ms = .ok r' := by
  rw [run_append] at h
  cases hr₁ : r.run ls with
  | ok r₁ =>
    rw [hr₁] at h
    exact ⟨r₁, rfl, h⟩
  | error e =>
    rw [hr₁] at h
    cases h

theorem run_singleton : r.run [l] = r.step l := by
  rw [run]
  cases r.step l <;> rfl

theorem run_of_cons (h : r.run (l :: ls) = .ok r') :
    ∃ r₁, r.step l = .ok r₁ ∧ r₁.run ls = .ok r' := by
  rw [← run_singleton]
  rw [← List.singleton_append] at h
  exact run_of_append h

/-- The first token that is refused. -/
theorem exists_of_run_error (h : r.run ls = .error e) :
    ∃ ks l ms r₁, ls = ks ++ l :: ms ∧ r.run ks = .ok r₁ ∧ r₁.step l = .error e := by
  induction ls generalizing r with
  | nil => cases h
  | cons l ls ih =>
    rw [run] at h
    cases hr₁ : r.step l with
    | ok r₁ =>
      rw [hr₁] at h
      obtain ⟨ks, l', ms, r₂, rfl, hr₂, he⟩ := ih h
      refine ⟨l :: ks, l', ms, r₂, rfl, ?_, he⟩
      rw [run, hr₁]
      exact hr₂
    | error e' =>
      rw [hr₁] at h
      cases h
      exact ⟨[], l, ls, r, rfl, rfl, hr₁⟩

/-- Behind some tokens an operand is due if the last one calls for it. -/
theorem run_operandDue (h : r.run ls = .ok r') (hl : ls.getLast? = some l) :
    r'.operandDue = l.token.callsForOperand := by
  obtain ⟨ks, rfl⟩ := List.getLast?_eq_some_iff.1 hl
  obtain ⟨r₁, -, h⟩ := run_of_append h
  rw [run_singleton] at h
  exact step_operandDue h

/-- Matched tokens lead back to the group in which they start. -/
theorem run_of_matched (h : Matched ts) (hls : ls.map Located.token = ts) (hr : r.run ls = .ok r') :
    r.SameGroup r' := by
  induction h generalizing ls r r' with
  | nil =>
    obtain rfl := List.map_eq_nil_iff.1 hls
    cases hr
    exact .refl r
  | other _ hleft hright ih =>
    obtain ⟨ks, ms, rfl, hks, hms⟩ := List.map_eq_append_iff.1 hls
    obtain ⟨l, rfl, rfl⟩ := List.map_eq_singleton_iff.1 hms
    obtain ⟨r₁, hr₁, hr⟩ := run_of_append hr
    rw [run_singleton] at hr
    obtain ⟨-, -, hsame⟩ | ⟨ht, -⟩ | ⟨ht, -⟩ := step_cases hr
    · exact (ih hks hr₁).trans hsame
    · exact absurd ht hleft
    · exact absurd ht hright
  | parens _ _ ihts ihus =>
    obtain ⟨js, ms, rfl, hjs, hms⟩ := List.map_eq_append_iff.1 hls
    obtain ⟨m, rfl, hm⟩ := List.map_eq_singleton_iff.1 hms
    obtain ⟨ks, ls, rfl, hks, hls⟩ := List.map_eq_append_iff.1 hjs
    obtain ⟨l, ls, rfl, hl, hls⟩ := List.map_eq_cons_iff.1 hls
    obtain ⟨r₃, hr₃, hr⟩ := run_of_append hr
    obtain ⟨r₁, hr₁, hr₃⟩ := run_of_append hr₃
    obtain ⟨r₂, hr₂, hr₃⟩ := run_of_cons hr₃
    rw [run_singleton] at hr
    obtain rfl := step_leftParen hr₂ hl
    obtain ⟨g, gs, houter, rfl⟩ := step_rightParen hr hm
    -- The group that the closing parenthesis goes back to is that of the opening one.
    obtain ⟨-, hsame⟩ := ihus hls hr₃
    obtain ⟨rfl, rfl⟩ := List.cons.inj (houter.symm.trans hsame)
    exact (ihts hks hr₁).trans ⟨rfl, rfl⟩

/-- Behind an opening parenthesis and matched tokens, its group is the innermost one. -/
theorem run_of_leftParen (hl : l.token = .leftParen) (hls : Matched (ls.map Located.token))
    (h : r.run (ks ++ l :: ls) = .ok r') :
    r'.current.position = l.position ∧ ∃ g gs, r'.outer = g :: gs := by
  obtain ⟨r₁, -, h⟩ := run_of_append h
  obtain ⟨r₂, hr₂, h⟩ := run_of_cons h
  obtain rfl := step_leftParen hr₂ hl
  obtain ⟨hposition, houter⟩ := run_of_matched hls rfl h
  exact ⟨hposition, _, _, houter⟩

/-! ### Taking what is viable -/

/-- Right parentheses end all the groups that are open. -/
theorem run_rightParens (gs : List Group) (g : Group) :
    ∃ g', run ⟨g, gs, false⟩ (List.replicate gs.length ⟨0, .rightParen⟩) = .ok ⟨g', [], false⟩ := by
  induction gs generalizing g with
  | nil => exact ⟨g, rfl⟩
  | cons g₀ gs ih => exact ih (g₀.push g.formula)

/-- Whatever a reader has taken, some more tokens end the formula. -/
theorem exists_ending (r : Reader) :
    ∃ ls g, (∀ name, .atom name ∈ ls.map Located.token → IsWord name) ∧
      r.run ls = .ok ⟨g, [], false⟩ := by
  obtain ⟨g, gs, operandDue⟩ := r
  cases operandDue with
  | false =>
    obtain ⟨g', hg'⟩ := run_rightParens gs g
    exact ⟨_, g', by simp, hg'⟩
  | true =>
    obtain ⟨g', hg'⟩ := run_rightParens gs (g.push (.atom "a"))
    have hword : IsWord "a" := ⟨by decide, by simp⟩
    refine ⟨⟨0, .atom "a"⟩ :: _, g', fun name hname => ?_, hg'⟩
    obtain rfl : name = "a" := by simpa using hname
    exact hword

end Reader

open Reader

/-- The reader takes some tokens exactly if they are viable. -/
theorem viable_iff (hwords : ∀ name, .atom name ∈ ls.map Located.token → IsWord name) :
    Viable (ls.map Located.token) ↔ ∃ r, start.run ls = .ok r := by
  constructor
  · rintro ⟨text, us, f, -, hf⟩
    -- The reader takes all the tokens of the formula, wherever the others stand.
    have hus : (us.map (Located.mk 0)).map Located.token = us := by
      rw [List.map_map]
      exact List.map_id us
    have hread : ofTokens? 0 (ls ++ us.map (Located.mk 0)) = .ok f :=
      ofTokens?_eq_ok_iff.2 (by rwa [List.map_append, hus])
    obtain ⟨r, hr, -⟩ := run_of_ofTokens? hread
    obtain ⟨r₁, hr₁, -⟩ := run_of_append hr
    exact ⟨r₁, hr₁⟩
  · rintro ⟨r, hr⟩
    obtain ⟨ms, g, hms, hending⟩ := r.exists_ending
    have hf := ofTokens?_of_run 0 ((run_append_of_ok hr).trans hending)
    rw [ofTokens?_eq_ok_iff, List.map_append] at hf
    have hall : ∀ name, .atom name ∈ ls.map Located.token ++ ms.map Located.token → IsWord name :=
      fun name hname => (List.mem_append.1 hname).elim (hwords name) (hms name)
    obtain ⟨cs, hcs⟩ := Token.exists_spells hall
    rw [← String.toList_ofList (l := cs)] at hcs
    exact ⟨_, _, _, hcs, hf⟩

/-! ### The parentheses that are open -/

/-- Some **nested** groups, the innermost one first, at the parentheses that are open behind some
tokens. -/
inductive Nested : List Group → List Located → Prop
  | top {g : Group} {ls : List Located} (hls : Matched (ls.map Located.token)) : Nested [g] ls
  | inner {g : Group} {gs : List Group} {ks ls : List Located} {l : Located} (hgs : Nested gs ks)
    (hl : l.token = .leftParen) (hg : g.position = l.position)
    (hls : Matched (ls.map Located.token)) : Nested (g :: gs) (ks ++ l :: ls)

/-- Matched tokens open and close no group. -/
theorem Nested.append (h : Nested (g :: gs) ls) (hg : g'.position = g.position)
    (hms : Matched (ms.map Located.token)) : Nested (g' :: gs) (ls ++ ms) := by
  cases h with
  | top hls =>
    refine .top ?_
    rw [List.map_append]
    exact hls.append hms
  | inner hgs hl hg' hls =>
    rw [List.append_assoc, List.cons_append]
    refine .inner hgs hl (hg.trans hg') ?_
    rw [List.map_append]
    exact hls.append hms

/-- The open groups are those of the parentheses that are open, after a step. -/
theorem Nested.step (h : Nested (r.current :: r.outer) ls) (hr : r.step l = .ok r') :
    Nested (r'.current :: r'.outer) (ls ++ [l]) := by
  obtain ⟨hleft, hright, hposition, houter⟩ | ⟨hl, rfl⟩ | ⟨hl, g, gs, houter, rfl⟩ := step_cases hr
  · rw [houter]
    exact h.append hposition (Matched.nil.other hleft hright)
  · exact .inner h hl rfl .nil
  · rw [houter] at h
    cases h with
    | @inner _ _ ks ms l' hgs hl' _ hms =>
      rw [List.append_assoc]
      refine hgs.append rfl ?_
      have hmatched := Matched.nil.parens hms
      simpa [hl, hl'] using hmatched

/-- The open groups are those of the parentheses that are open, after a run. -/
theorem Nested.run (h : Nested (r.current :: r.outer) ls) (hr : r.run ms = .ok r') :
    Nested (r'.current :: r'.outer) (ls ++ ms) := by
  induction ms generalizing r ls with
  | nil =>
    cases hr
    rwa [List.append_nil]
  | cons l ms ih =>
    obtain ⟨r₁, hr₁, hr⟩ := run_of_cons hr
    have hms := ih (h.step hr₁) hr
    rwa [List.append_assoc] at hms

/-- The groups that are open are those of the parentheses that are. -/
theorem nested_of_run (h : start.run ls = .ok r) : Nested (r.current :: r.outer) ls := by
  have hstart : Nested (start.current :: start.outer) [] := .top .nil
  exact hstart.run h

/-- Inside a group, the innermost one starts at the last parenthesis that is open. -/
theorem Nested.exists_leftParen (h : Nested (g :: g' :: gs) ls) :
    ∃ ks l ms, ls = ks ++ l :: ms ∧ l.token = .leftParen ∧ g.position = l.position ∧
      Matched (ms.map Located.token) := by
  cases h with
  | inner _ hl hg hms => exact ⟨_, _, _, rfl, hl, hg, hms⟩

/-! ### The place of a refusal -/

/-- Some tokens of a text are viable exactly if the reader can read them. -/
theorem viable_iff_of_cut (h : Cut text ls) (hks : ks <+: ls) :
    Viable (ks.map Located.token) ↔ ∃ r, start.run ks = .ok r :=
  viable_iff fun name hname => h.spells.isWord name ((hks.map Located.token).subset hname)

/-- A text is parsed as the tokens are that it is cut into. -/
theorem parse?_of_cut (h : Cut text ls) : parse? text = ofTokens? text.utf8ByteSize ls := by
  rw [parse?, Token.scan?_eq_ok_iff_cut.2 h]

/-- Tokens are read, and then the formula is finished. -/
theorem ofTokens?_of_getLast? {length : Nat} (hl : ls.getLast? = some l) :
    ofTokens? length ls = (start.run ls).bind fun r => r.finish length := by
  obtain ⟨ks, rfl⟩ := List.getLast?_eq_some_iff.1 hl
  rw [ofTokens?, if_neg (by simp)]
  cases start.run (ks ++ [l]) <;> rfl

/-- A token that the reader refuses. -/
theorem RefusedAt.of_run_error (h : Cut text ls) (he : start.run ls = .error e) :
    RefusedAt text e.position := by
  obtain ⟨ks, l, ms, r, rfl, hr, he⟩ := exists_of_run_error he
  rw [step_error he]
  refine .token h (fun js hjs => ?_) ?_
  · have hprefix := hjs.trans (List.prefix_append ks (l :: ms))
    obtain ⟨js', rfl⟩ := hjs
    obtain ⟨r', hr', -⟩ := run_of_append hr
    exact (viable_iff_of_cut h hprefix).2 ⟨r', hr'⟩
  · rw [viable_iff_of_cut h (ListFacts.prefix_append_cons ..), run_append_of_ok hr,
      run_singleton, he]
    rintro ⟨r', hr'⟩
    cases hr'

/-- Tokens that the reader takes, and that are not all of a formula. -/
theorem RefusedAt.of_finish_error (h : Cut text ls) (hl : ls.getLast? = some l)
    (hr : start.run ls = .ok r) (he : r.finish text.utf8ByteSize = .error e) :
    RefusedAt text e.position := by
  have hviable : Viable (ls.map Located.token) :=
    (viable_iff_of_cut h List.prefix_rfl).2 ⟨r, hr⟩
  have hdue := run_operandDue hr hl
  rw [finish, hdue] at he
  split at he
  · next hoperand =>
    cases he
    exact .operand h hviable hl hoperand
  · next hoperand =>
    split at he <;> cases he
    next g gs houter =>
    have hnested := nested_of_run hr
    rw [houter] at hnested
    obtain ⟨ks, l', ms, rfl, hl', hposition, hms⟩ := hnested.exists_leftParen
    rw [hposition]
    exact .paren h hviable hl (Bool.eq_false_iff.2 hoperand) hl' hms

/-- A text is refused at one of the offsets. -/
theorem RefusedAt.of_error (h : parse? text = .error e) : RefusedAt text e.position := by
  cases hscan : Token.scan? text with
  | error stop =>
    rw [parse?, hscan] at h
    cases h
    exact .character (Token.scan?_eq_error_iff.1 hscan)
  | ok ls =>
    have hcut := Token.scan?_eq_ok_iff_cut.1 hscan
    rw [parse?_of_cut hcut] at h
    cases hl : ls.getLast? with
    | none =>
      obtain rfl := List.getLast?_eq_none_iff.1 hl
      cases h
      exact .empty hcut
    | some l =>
      rw [ofTokens?_of_getLast? hl] at h
      cases hr : start.run ls with
      | error e' =>
        rw [hr] at h
        cases h
        exact .of_run_error hcut hr
      | ok r =>
        rw [hr] at h
        exact .of_finish_error hcut hl hr h

/-- At each of the offsets the text is refused. -/
theorem RefusedAt.exists_error (h : RefusedAt text p) :
    ∃ problem, parse? text = .error ⟨p, problem⟩ := by
  cases h with
  | @character _ c h =>
    rw [parse?, Token.scan?_eq_error_iff.2 h]
    exact ⟨_, rfl⟩
  | empty h =>
    rw [parse?_of_cut h]
    exact ⟨_, rfl⟩
  | @token ks ls l h hks hl =>
    obtain ⟨r, hr⟩ := (viable_iff_of_cut h (List.prefix_append ..)).1 (hks ks List.prefix_rfl)
    rw [viable_iff_of_cut h (ListFacts.prefix_append_cons ..), run_append_of_ok hr,
      run_singleton] at hl
    -- The reader stops at the token, as otherwise it would be viable.
    cases he : r.step l with
    | ok r' => exact absurd ⟨r', he⟩ hl
    | error e =>
      rw [parse?_of_cut h, ofTokens?, if_neg (by simp), run_append_of_ok hr, run, he,
        ← step_error he]
      exact ⟨_, rfl⟩
  | @operand ls m h hviable hlast hm =>
    obtain ⟨r, hr⟩ := (viable_iff_of_cut h List.prefix_rfl).1 hviable
    rw [parse?_of_cut h, ofTokens?_of_getLast? hlast, hr]
    have hdue := run_operandDue hr hlast
    refine ⟨.unexpectedEnd, ?_⟩
    rw [Except.bind, finish, hdue, if_pos hm]
  | @paren ks ls l m h hviable hlast hm hl hls =>
    obtain ⟨r, hr⟩ := (viable_iff_of_cut h List.prefix_rfl).1 hviable
    obtain ⟨hposition, g, gs, houter⟩ := run_of_leftParen hl hls hr
    rw [parse?_of_cut h, ofTokens?_of_getLast? hlast, hr]
    have hdue := run_operandDue hr hlast
    refine ⟨.missingParen, ?_⟩
    rw [Except.bind, finish, hdue, hm, houter, hposition, if_neg Bool.false_ne_true]

/-- An offset at which a text is refused is on a character boundary. -/
theorem RefusedAt.isValid (h : RefusedAt text p) : String.Pos.Raw.IsValid text ⟨p⟩ := by
  cases h with
  | character h => exact h.isValid
  | empty h => exact String.Pos.Raw.isValid_zero
  | token h => exact h.isValid (by simp)
  | operand h => exact String.Pos.Raw.isValid_rawEndPos
  | paren h => exact h.isValid (by simp)

/-- Parsing fails as malformed, and in no other way. -/
theorem parse_eq_error_iff {e : Error} :
    Formula.parse text = .error e ↔
      ∃ e', parse? text = .error e' ∧ e = .ofCause (.malformed e') := by
  rw [Formula.parse]
  cases parse? text <;> simp [Except.mapError, eq_comm]

/-- **Refusals name the place.** A text that is refused at an offset is not read. A text that is not
read is malformed and refused at one offset, the one that is reported: that of the first character
that starts no token, whatever stands before it; without tokens the start; that of the last one of
the fewest tokens that no formula starts with; the end, where an operand is missing; or that of the
innermost parenthesis that is not closed. The offset is in the text, on a character boundary. -/
theorem parse_error_exact (text : String) :
    (∀ p, RefusedAt text p →
      ∃ problem, Formula.parse text = .error (.ofCause (.malformed ⟨p, problem⟩))) ∧
    ∀ e, Formula.parse text = .error e →
      ∃ p problem, e = .ofCause (.malformed ⟨p, problem⟩) ∧ (∀ q, RefusedAt text q ↔ q = p) ∧
        p ≤ text.utf8ByteSize ∧ String.Pos.Raw.IsValid text ⟨p⟩ := by
  refine ⟨fun p hp => ?_, fun e h => ?_⟩
  · obtain ⟨problem, hparse⟩ := hp.exists_error
    exact ⟨problem, parse_eq_error_iff.2 ⟨_, hparse, rfl⟩⟩
  · obtain ⟨⟨p, problem⟩, hparse, rfl⟩ := parse_eq_error_iff.1 h
    have hp : RefusedAt text p := .of_error hparse
    refine ⟨p, problem, rfl, fun q => ⟨fun hq => ?_, fun hq => hq ▸ hp⟩, ?_, hp.isValid⟩
    · obtain ⟨problem', hq⟩ := hq.exists_error
      cases hq.symm.trans hparse
      rfl
    · exact hp.isValid.le_rawEndPos

/-- Texts with blanks and with a foreign character that take more than one byte. -/
theorem parse_error_exact_places :
    (∀ q, RefusedAt "a\u3000b\u20ac" q ↔ q = 5) ∧ (∀ q, RefusedAt "\u3000\u00a0" q ↔ q = 0) ∧
      (∀ q, RefusedAt "(a \u00a0~ | b" q ↔ q = 5) ∧ (∀ q, RefusedAt "~a & (\u2003" q ↔ q = 9) ∧
      (∀ q, RefusedAt "\u3000(a & ((b)" q ↔ q = 8) := by
  have place {text : String} {p : Nat} (problem : SyntaxProblem)
      (h : Formula.parse text = .error (.ofCause (.malformed ⟨p, problem⟩))) :
      ∀ q, RefusedAt text q ↔ q = p := by
    obtain ⟨p', problem', he, hrefused, -⟩ := (parse_error_exact text).2 _ h
    cases he
    exact hrefused
  refine ⟨place (.unexpectedCharacter '\u20ac') ?_, place .emptyFormula ?_,
    place (.parenExpected .not) ?_, place .unexpectedEnd ?_, place .missingParen ?_⟩
  all_goals decide +kernel

end Formula

end JudgmentAggregation
