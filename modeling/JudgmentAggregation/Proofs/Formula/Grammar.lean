import JudgmentAggregation.Formula.Parser
import JudgmentAggregation.Proofs.Formula.Words

/-!
# The language of formula texts

Which texts are formulas, and which formula a text is, said without the reader. A text **spells**
some tokens when it is made of them and of blanks around them, the words being as long as they can
be (`Token.Spells`). The tokens are a formula by the grammar

* implication ::= conjunction | implication `->` conjunction
* conjunction ::= disjunction (`&` disjunction)*
* disjunction ::= unary (`|` unary)*
* unary ::= `~` unary | atom | `(` implication `)`

where each derivation has its tree (`Formula.Derives`). Conjunctions and disjunctions are both
chains of operands, and a chain of one operand has the tree of this operand.
-/

namespace JudgmentAggregation

/-! ### Texts and tokens -/

/-- A text **spells** some tokens when it consists of them and of blanks, where no letter or digit
stands behind a word. -/
inductive Token.Spells : List Char → List Token → Prop
  | nil : Spells [] []
  | blank {c : Char} {cs : List Char} {ts : List Token} (hc : isBlank c = true) (h : Spells cs ts) :
    Spells (c :: cs) ts
  | symbol {c : Char} {t : Token} {cs : List Char} {ts : List Token} (hc : symbol? c = some t)
    (h : Spells cs ts) : Spells (c :: cs) (t :: ts)
  | arrow {cs : List Char} {ts : List Token} (h : Spells cs ts) :
    Spells ('-' :: '>' :: cs) (.implies :: ts)
  | word {name : String} {cs : List Char} {ts : List Token} (hname : IsWord name)
    (hcs : ∀ c ∈ cs.head?, isAtomChar c = false) (h : Spells cs ts) :
    Spells (name.toList ++ cs) (.atom name :: ts)

namespace Formula

/-! ### Tokens and formulas -/

/-- The two kinds of chains of operands. -/
inductive Chain where
  | conjunction
  | disjunction

/-- The parts of formulas that the grammar knows. The operands of a chain are two or more. -/
inductive Phrase where
  | implication
  | chain (c : Chain)
  | operands (c : Chain)
  | unary

namespace Chain

/-- The token between the operands. -/
def operator : Chain → Token
  | conjunction => .and
  | disjunction => .or

/-- The node over the operands. -/
def node : Chain → List Formula → Formula
  | conjunction => .and
  | disjunction => .or

/-- The operands of a conjunction are disjunctions, and those of a disjunction are unary. -/
def operand : Chain → Phrase
  | conjunction => .chain disjunction
  | disjunction => .unary

end Chain

/-- Some tokens are a phrase with the tree of a formula. -/
inductive Derives : Phrase → List Token → Formula → Prop
  | conclusion {ts : List Token} {f : Formula} (h : Derives (.chain .conjunction) ts f) :
    Derives .implication ts f
  | implies {ts us : List Token} {f g : Formula} (hf : Derives .implication ts f)
    (hg : Derives (.chain .conjunction) us g) :
    Derives .implication (ts ++ .implies :: us) (.implies f g)
  | single {c : Chain} {ts : List Token} {f : Formula} (h : Derives c.operand ts f) :
    Derives (.chain c) ts f
  | several {c : Chain} {ts : List Token} {f : Formula} (h : Derives (.operands c) ts f) :
    Derives (.chain c) ts f
  | pair {c : Chain} {ts us : List Token} {f g : Formula} (hf : Derives c.operand ts f)
    (hg : Derives c.operand us g) :
    Derives (.operands c) (ts ++ c.operator :: us) (c.node [f, g])
  | more {c : Chain} {ts us : List Token} {fs : List Formula} {g : Formula}
    (hfs : Derives (.operands c) ts (c.node fs)) (hg : Derives c.operand us g) :
    Derives (.operands c) (ts ++ c.operator :: us) (c.node (fs ++ [g]))
  | not {ts : List Token} {f : Formula} (h : Derives .unary ts f) :
    Derives .unary (.not :: ts) (.not f)
  | atom (name : String) : Derives .unary [.atom name] (.atom name)
  | parens {ts : List Token} {f : Formula} (h : Derives .implication ts f) :
    Derives .unary (.leftParen :: ts ++ [.rightParen]) f

/-- A text is a **sentence** with the tree of a formula when it spells tokens that are a formula
with this tree. -/
def Sentence (text : String) (f : Formula) : Prop :=
  ∃ ts, Token.Spells text.toList ts ∧ Derives .implication ts f

end Formula

end JudgmentAggregation
