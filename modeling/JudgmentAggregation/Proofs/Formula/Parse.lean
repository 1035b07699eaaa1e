import JudgmentAggregation.Proofs.Formula.Reading
import JudgmentAggregation.Proofs.Formula.Scanning

/-!
# Reading a text gives its formula

A text is read as a formula exactly if it is a sentence with this formula as its tree
(`Formula.parse_eq_ok_iff`), and any other text is malformed. So a text has one tree at most. The
texts that are atoms of their own name are the words (`Formula.parse_eq_atom_iff`).
-/

namespace JudgmentAggregation

namespace Formula

variable {text name : String} {f g : Formula}

/-- The parser accepts the sentences, with the formulas that they are for. -/
theorem parse?_eq_ok_iff : parse? text = .ok f ↔ Sentence text f := by
  have hscan (ts) : (∃ ls, Token.scan? text = .ok ls ∧ ls.map Token.Located.token = ts) ↔
      Token.Spells text.toList ts := Token.scan?_eq_ok_iff
  rw [parse?]
  constructor
  · intro h
    split at h
    · next ls hls => exact ⟨_, (hscan _).1 ⟨ls, hls, rfl⟩, ofTokens?_eq_ok_iff.1 h⟩
    · cases h
  · rintro ⟨ts, hts, hf⟩
    obtain ⟨ls, hls, rfl⟩ := (hscan ts).2 hts
    rw [hls]
    exact ofTokens?_eq_ok_iff.2 hf

/-- Parsing a text gives a formula exactly if the text is a sentence for it. -/
theorem parse_eq_ok_iff : Formula.parse text = .ok f ↔ Sentence text f := by
  rw [Formula.parse, ← parse?_eq_ok_iff]
  cases parse? text <;> simp [Except.mapError]

/-- A text has one tree at most. -/
theorem Sentence.unique (hf : Sentence text f) (hg : Sentence text g) : f = g := by
  have hparse := (parse_eq_ok_iff.2 hf).symm.trans (parse_eq_ok_iff.2 hg)
  cases hparse
  rfl

/-- A text that is not read is malformed. -/
theorem exists_malformed (h : ∀ f, ¬ Sentence text f) :
    ∃ e, Formula.parse text = .error (.ofCause (.malformed e)) := by
  have hparse (f) : parse? text ≠ .ok f := fun hf => h f (parse?_eq_ok_iff.1 hf)
  rw [Formula.parse]
  cases he : parse? text with
  | ok f => exact absurd he (hparse f)
  | error e => exact ⟨e, rfl⟩

/-- The words are the texts that are read as the atom of their name. -/
theorem parse_eq_atom_iff : Formula.parse name = .ok (.atom name) ↔ IsWord name := by
  constructor
  · intro h
    exact parse_readable h name (by simp)
  · intro h
    have hspells := Token.Spells.word h (by simp) .nil
    rw [List.append_nil] at hspells
    exact parse_eq_ok_iff.2 ⟨_, hspells, .conclusion (.single (.single (.atom name)))⟩

/-- **Reading is exact.** A text is read as a formula exactly if it is a sentence of the grammar,
with blanks around its tokens, that has the formula as its tree. Any other text is malformed. -/
theorem parse_exact (text : String) :
    (∀ f, Formula.parse text = .ok f ↔ Sentence text f) ∧
      ((∀ f, ¬ Sentence text f) →
        ∃ e, Formula.parse text = .error (.ofCause (.malformed e))) :=
  ⟨fun _ => parse_eq_ok_iff, exists_malformed⟩

-- Blanks do not matter, implications group to the left, and a chain in parentheses stays one.
example : Sentence "a&(b & c)->\u00a0d -> ~~e|f" (.implies
    (.implies (.and [.atom "a", .and [.atom "b", .atom "c"]]) (.atom "d"))
    (.or [.not (.not (.atom "e")), .atom "f"])) :=
  parse_eq_ok_iff.1 (by decide +kernel)

end Formula

end JudgmentAggregation
