import JudgmentAggregation.Proofs.Formula.Parse

/-!
# Texts of formulas are read back

A formula is **expressible** when its atoms are words and its conjunctions and disjunctions have at
least two operands (`Formula.Expressible`). These are the formulas that texts have as their trees
(`Formula.Derives.expressible`), and the text of such a formula has this formula as its tree: by
induction on the formula, its text spells tokens that are a unary phrase, whatever stands behind it
(`Formula.Expressible.written`). So the text of a formula is read back as the formula exactly if it
is expressible (`Formula.parse_display_exact`).
-/

namespace JudgmentAggregation

namespace Token

variable {text text' : String} {ts us : List Token}

/-- A text **shows** some tokens when it spells them in front of anything that does not start with a
letter or a digit. -/
def Shows (text : String) (ts : List Token) : Prop :=
  ∀ cs us, (∀ c ∈ cs.head?, isAtomChar c = false) → Spells cs us →
    Spells (text.toList ++ cs) (ts ++ us)

/-- A text **delimits** when it spells some tokens in front of anything. -/
def Delimits (text : String) (ts : List Token) : Prop :=
  ∀ cs us, Spells cs us → Spells (text.toList ++ cs) (ts ++ us)

/-- A text that can stand before anything shows its tokens by itself. -/
theorem Delimits.shows (h : Delimits text ts) : Shows text ts :=
  fun cs us _ => h cs us

theorem shows_empty : Shows "" [] :=
  fun _ _ _ h => h

/-- A word shows itself. -/
theorem shows_word {name : String} (h : IsWord name) : Shows name [.atom name] :=
  fun _ _ hcs hspells => .word h hcs hspells

theorem Delimits.append (h : Delimits text ts) (h' : Shows text' us) :
    Shows (text ++ text') (ts ++ us) := by
  intro cs vs hcs hspells
  rw [String.toList_append, List.append_assoc, List.append_assoc]
  exact h _ _ (h' cs vs hcs hspells)

theorem Shows.append (h : Shows text ts) (h' : Shows text' us)
    (hhead : ∀ c ∈ text'.toList.head?, isAtomChar c = false) :
    Shows (text ++ text') (ts ++ us) := by
  intro cs vs hcs hspells
  rw [String.toList_append, List.append_assoc, List.append_assoc]
  refine h _ _ ?_ (h' cs vs hcs hspells)
  cases htext : text'.toList with
  | nil => exact hcs
  | cons c ds =>
    rw [htext] at hhead
    exact hhead

theorem delimits_not : Delimits "~" [.not] :=
  fun _ _ h => .symbol rfl h

theorem delimits_leftParen : Delimits "(" [.leftParen] :=
  fun _ _ h => .symbol rfl h

theorem delimits_rightParen : Delimits ")" [.rightParen] :=
  fun _ _ h => .symbol rfl h

theorem delimits_arrow : Delimits " -> " [.implies] :=
  fun _ _ h => .blank rfl (.arrow (.blank rfl h))

end Token

namespace Formula

open Token (Shows Delimits)

/-- A formula is **expressible** when its atoms are words and its conjunctions and disjunctions have
two operands or more. -/
inductive Expressible : Formula → Prop
  | atom {name : String} (hname : IsWord name) : Expressible (.atom name)
  | not {f : Formula} (hf : Expressible f) : Expressible (.not f)
  | and {fs : List Formula} (hlength : 2 ≤ fs.length) (hfs : ∀ f ∈ fs, Expressible f) :
    Expressible (.and fs)
  | or {fs : List Formula} (hlength : 2 ≤ fs.length) (hfs : ∀ f ∈ fs, Expressible f) :
    Expressible (.or fs)
  | implies {f g : Formula} (hf : Expressible f) (hg : Expressible g) : Expressible (.implies f g)

/-- A formula is **written** when its text shows tokens that are a unary phrase with its tree. -/
def Written (f : Formula) : Prop :=
  ∃ ts, Shows f.display ts ∧ Derives .unary ts f

variable {c : Chain} {f g : Formula} {fs gs : List Formula} {ts us : List Token} {text : String}

/-! ### Chains of operands -/

namespace Chain

/-- What stands between the texts of two operands. -/
def separator : Chain → String
  | conjunction => " & "
  | disjunction => " | "

/-- A chain is written in parentheses, with separators between the operands. -/
theorem display_node (c : Chain) (fs : List Formula) :
    (c.node fs).display = "(" ++ displayList c.separator fs ++ ")" := by
  cases c <;> rfl

/-- A separator can stand before anything. -/
theorem delimits_separator (c : Chain) : Delimits c.separator [c.operator] := by
  cases c <;> exact fun _ _ h => .blank rfl (.symbol rfl (.blank rfl h))

/-- A chain of two or more operands is expressible if they are. -/
theorem expressible_node (hlength : 2 ≤ fs.length) (hfs : ∀ f ∈ fs, f.Expressible) :
    (c.node fs).Expressible := by
  cases c
  · exact .and hlength hfs
  · exact .or hlength hfs

end Chain

/-- A unary phrase is an operand of any chain. -/
theorem Derives.operand (h : Derives .unary ts f) : Derives c.operand ts f := by
  cases c
  · exact .single h
  · exact h

/-- A chain in parentheses is a unary phrase. -/
theorem Derives.group (h : Derives (.operands c) ts f) :
    Derives .unary (.leftParen :: ts ++ [.rightParen]) f := by
  cases c
  · exact .parens (.conclusion (.several h))
  · exact .parens (.conclusion (.single (.several h)))

/-- The text of further operands does not start with a letter or a digit. -/
theorem head_displayRest (c : Chain) (fs : List Formula) :
    ∀ d ∈ (displayRest c.separator fs).toList.head?, Token.isAtomChar d = false := by
  cases fs with
  | nil => exact fun d hd => by cases hd
  | cons f fs =>
    rw [displayRest, String.toList_append, String.toList_append]
    cases c <;> exact fun d hd => by cases hd; rfl

/-- The operands after the first one are shown one by one. -/
theorem shows_displayRest (hf : Shows f.display ts) (hfs : Shows (displayRest c.separator fs) us) :
    Shows (displayRest c.separator (f :: fs)) (c.operator :: (ts ++ us)) := by
  rw [displayRest, String.append_assoc]
  exact c.delimits_separator.append (hf.append hfs (head_displayRest c fs))

/-- Further operands that are written make a longer chain. -/
theorem exists_shows_displayRest (hfs : ∀ f ∈ fs, f.Written)
    (h : Derives (.operands c) ts (c.node gs)) :
    ∃ us, Shows (displayRest c.separator fs) us ∧
      Derives (.operands c) (ts ++ us) (c.node (gs ++ fs)) := by
  induction fs generalizing ts gs with
  | nil =>
    refine ⟨[], Token.shows_empty, ?_⟩
    rwa [List.append_nil, List.append_nil]
  | cons f fs ih =>
    obtain ⟨⟨us, hshows, hf⟩, hfs⟩ := List.forall_mem_cons.1 hfs
    obtain ⟨vs, hrest, hderives⟩ := ih hfs (h.more hf.operand)
    refine ⟨_, shows_displayRest hshows hrest, ?_⟩
    simpa using hderives

/-- A chain of two or more written operands is written. -/
theorem written_node (hlength : 2 ≤ fs.length) (hfs : ∀ f ∈ fs, f.Written) :
    (c.node fs).Written := by
  obtain _ | ⟨f, _ | ⟨g, fs⟩⟩ := fs
  · simp at hlength
  · simp at hlength
  obtain ⟨⟨ts, hts, hf⟩, hgfs⟩ := List.forall_mem_cons.1 hfs
  obtain ⟨⟨us, hus, hg⟩, hfs⟩ := List.forall_mem_cons.1 hgfs
  obtain ⟨vs, hvs, hderives⟩ := exists_shows_displayRest hfs (hf.operand.pair hg.operand)
  refine ⟨_, ?_, hderives.group⟩
  have hoperands := hts.append (shows_displayRest hus hvs) (head_displayRest c (g :: fs))
  rw [c.display_node, displayList, String.append_assoc]
  have hclose := hoperands.append Token.delimits_rightParen.shows (fun d hd => by cases hd; rfl)
  simpa using Token.delimits_leftParen.append hclose

/-! ### Texts of formulas -/

/-- The text of an expressible formula shows a unary phrase with its tree. -/
theorem Expressible.written (h : f.Expressible) : f.Written := by
  induction h with
  | @atom name hname => exact ⟨_, Token.shows_word hname, .atom name⟩
  | not _ ih =>
    obtain ⟨ts, hts, hf⟩ := ih
    exact ⟨_, Token.delimits_not.append hts, hf.not⟩
  | and hlength _ ih => exact written_node (c := .conjunction) hlength ih
  | or hlength _ ih => exact written_node (c := .disjunction) hlength ih
  | @implies f g _ _ ihf ihg =>
    obtain ⟨ts, hts, hf⟩ := ihf
    obtain ⟨us, hus, hg⟩ := ihg
    have himplies : Derives .implication (ts ++ .implies :: us) (.implies f g) :=
      (Derives.conclusion (.single (.single hf))).implies (.single (.single hg))
    refine ⟨_, ?_, himplies.parens⟩
    have hclose := hus.append Token.delimits_rightParen.shows (fun d hd => by cases hd; rfl)
    have harrow := hts.append (Token.delimits_arrow.append hclose)
      (fun d hd => by rw [String.toList_append] at hd; cases hd; rfl)
    simpa [display, String.append_assoc] using Token.delimits_leftParen.append harrow

/-- What a derivation from tokens whose atoms are words tells of its tree. -/
def Phrase.Tells (f : Formula) : Phrase → Prop
  | .operands c => ∃ fs, f = c.node fs ∧ 2 ≤ fs.length ∧ ∀ g ∈ fs, g.Expressible
  | _ => f.Expressible

/-- What an operand tells of is expressible. -/
theorem Phrase.Tells.of_operand (h : c.operand.Tells f) : f.Expressible := by
  cases c <;> exact h

/-- A formula that is derived from words is of the form that its phrase tells. -/
theorem Derives.tells {p : Phrase} (h : Derives p ts f)
    (hts : ∀ name, .atom name ∈ ts → IsWord name) : p.Tells f := by
  induction h with
  | conclusion _ ih => exact ih hts
  | implies _ _ ihf ihg =>
    exact .implies (ihf fun name hname => hts name (List.mem_append_left _ hname))
      (ihg fun name hname => hts name (List.mem_append_right _ (List.mem_cons_of_mem _ hname)))
  | single _ ih => exact (ih hts).of_operand
  | several _ ih =>
    obtain ⟨fs, rfl, hlength, hfs⟩ := ih hts
    exact Chain.expressible_node hlength hfs
  | @pair c ts us f g _ _ ihf ihg =>
    have hf := (ihf fun name hname => hts name (List.mem_append_left _ hname)).of_operand
    have hg := (ihg fun name hname =>
      hts name (List.mem_append_right _ (List.mem_cons_of_mem _ hname))).of_operand
    exact ⟨[f, g], rfl, Nat.le_refl 2, by simp [hf, hg]⟩
  | @more c ts us fs g _ _ ihfs ihg =>
    obtain ⟨fs', hnode, hlength, hfs⟩ := ihfs fun name hname =>
      hts name (List.mem_append_left _ hname)
    obtain rfl := Chain.node_injective hnode
    have hg := (ihg fun name hname =>
      hts name (List.mem_append_right _ (List.mem_cons_of_mem _ hname))).of_operand
    refine ⟨fs ++ [g], rfl, ?_, ?_⟩
    · rw [List.length_append]
      omega
    · exact List.forall_mem_append.2 ⟨hfs, List.forall_mem_singleton.2 hg⟩
  | not _ ih => exact .not (ih fun name hname => hts name (List.mem_cons_of_mem _ hname))
  | atom name => exact .atom (hts name List.mem_cons_self)
  | parens _ ih =>
    exact ih fun name hname =>
      hts name (List.mem_append_left _ (List.mem_cons_of_mem _ hname))

/-- The tree of a text is expressible. -/
theorem Sentence.expressible (h : Sentence text f) : f.Expressible := by
  obtain ⟨ts, hspells, hderives⟩ := h
  exact hderives.tells hspells.isWord

/-- The text of an expressible formula is a sentence with this formula as its tree. -/
theorem Expressible.sentence (h : f.Expressible) : Sentence f.display f := by
  obtain ⟨ts, hshows, hderives⟩ := h.written
  refine ⟨ts, ?_, .conclusion (.single (.single hderives))⟩
  have hspells := hshows [] [] (by simp) .nil
  rwa [List.append_nil, List.append_nil] at hspells

/-- **Texts are read back.** The text of a formula is read as this formula exactly if its atoms are
words and its conjunctions and disjunctions have two operands or more, and every formula that is
read from a text is of this kind. -/
theorem parse_display_exact :
    (∀ f : Formula, Formula.parse f.display = .ok f ↔ f.Expressible) ∧
      ∀ text f, Formula.parse text = .ok f → f.Expressible := by
  have hread (text f) (h : Formula.parse text = .ok f) : f.Expressible :=
    (parse_eq_ok_iff.1 h).expressible
  exact ⟨fun f => ⟨hread f.display f, fun h => parse_eq_ok_iff.2 h.sentence⟩, hread⟩

/-- Operands with the operator of the node above keep their parentheses. One more conjunction around
the formula, with no other operand, gets lost. -/
theorem parse_display_exact_nested :
    let f : Formula := .and [.and [.atom "a", .not (.not (.atom "b2"))],
      .or [.atom "c", .or [.atom "d", .implies (.implies (.atom "a") (.atom "e")) (.atom "c")]]]
    Formula.parse "(a&~~ b2)&(c|(d|(a->e->c)))" = .ok f ∧ f.Expressible ∧
      Formula.parse f.display = .ok f ∧ Formula.parse (and [f]).display ≠ .ok (and [f]) := by
  intro f
  have htext : Formula.parse "(a&~~ b2)&(c|(d|(a->e->c)))" = .ok f := by decide +kernel
  have hf : f.Expressible := parse_display_exact.2 _ f htext
  refine ⟨htext, hf, (parse_display_exact.1 f).2 hf, fun h => ?_⟩
  obtain _ | _ | ⟨hlength, -⟩ := (parse_display_exact.1 _).1 h
  simp at hlength

end Formula

end JudgmentAggregation
