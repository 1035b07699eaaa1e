import JudgmentAggregation.Proofs.Cnf.Naming
import JudgmentAggregation.Proofs.Formula.Words
import JudgmentAggregation.Scenario.Change

/-!
# Internal names do not clash

The variables of labels, the variables of voters and the auxiliary variables of the standard
converter start with an underscore, so that no atom of a text is one of them. Their second letters
keep the three families apart, and within a family the decimal digits determine the numbers. Reading
the name of a label gives the label back (`Label.ofVariable?_variableName`), as far as labels are
counts. No such name can be written in a formula or declared (`internal_names_exact`).
-/

namespace JudgmentAggregation

/-- The characters of a number are its decimal digits. -/
theorem toList_toString (n : Nat) : (toString n).toList = Nat.toDigits 10 n :=
  Nat.toList_repr

/-- Numbers are written with digits. -/
theorem isDigit_of_mem_toDigits {n : Nat} {c : Char} (h : c ∈ Nat.toDigits 10 n) :
    c.isDigit = true :=
  Nat.isDigit_of_mem_toDigits (by decide) (by decide) h

/-- Different numbers are written differently. -/
theorem toDigits_injective {m n : Nat} (h : Nat.toDigits 10 m = Nat.toDigits 10 n) : m = n := by
  rw [← Nat.ofDigitChars_ten_toDigits (n := m), h, Nat.ofDigitChars_ten_toDigits]

/-- The standard auxiliary variables start with `_a`. -/
theorem toList_of_auxiliary {v : String} (h : Converter.Auxiliary "_aux" v) :
    ∃ cs, v.toList = '_' :: 'a' :: cs := by
  obtain ⟨i, rfl⟩ := h
  refine ⟨'u' :: 'x' :: (toString i).toList, ?_⟩
  rw [String.toList_append]
  rfl

namespace Label

variable {l m : Nat}

/-- The name of a label is an underscore, an `l` and its number. -/
theorem toList_variableName (l : Nat) :
    (variableName l).toList = '_' :: 'l' :: Nat.toDigits 10 l := by
  rw [variableName, String.toList_append, toList_toString]
  rfl

/-- Different labels have different names. -/
theorem variableName_injective (h : variableName l = variableName m) : l = m :=
  Converter.name_injective h

/-- No name of a label is one that a converter gives. -/
theorem not_auxiliary_variableName (l : Nat) : ¬ Converter.Auxiliary "_aux" (variableName l) := by
  intro h
  obtain ⟨cs, hcs⟩ := toList_of_auxiliary h
  rw [toList_variableName] at hcs
  simp at hcs

theorem readDigits?_eq {cs : List Char} (h : ∀ c ∈ cs, c.isDigit = true) (n : Nat) :
    readDigits? n cs = some (Nat.ofDigitChars 10 cs n) := by
  induction cs generalizing n with
  | nil => rfl
  | cons c cs ih =>
    rw [readDigits?, if_pos (h c List.mem_cons_self),
      ih fun d hd => h d (List.mem_cons_of_mem _ hd), Nat.ofDigitChars_cons]

/-- The digits of a number are read as this number if it is a count. -/
theorem readCount?_toDigits (l : Nat) :
    readCount? (Nat.toDigits 10 l) = (some l).filter (· < Count.limit) := by
  have hdigits : ∀ c ∈ Nat.toDigits 10 l, c.isDigit = true := fun _ => isDigit_of_mem_toDigits
  rw [readCount?.eq_def]
  split
  · next ds hplus =>
    -- A decimal number has no sign.
    have hsign := hdigits '+' (by rw [hplus]; exact List.mem_cons_self)
    exact absurd hsign (by decide)
  · have hne : (Nat.toDigits 10 l).isEmpty = false := by simp [Nat.toDigits_ne_nil]
    simp only [hne, readDigits?_eq hdigits, Nat.ofDigitChars_ten_toDigits]
    simp

/-- The label that the variable of a label stands for is that label, if it is a count. -/
theorem ofVariable?_variableName_iff : ofVariable? (variableName l) = some l ↔ l < Count.limit := by
  rw [ofVariable?, toList_variableName]
  simp only [readCount?_toDigits]
  simp

/-- A label is found again from its name. -/
theorem ofVariable?_variableName (h : l < Count.limit) :
    ofVariable? (variableName l) = some l :=
  ofVariable?_variableName_iff.2 h

end Label

section Voters

variable {i j k l : Nat}

/-- The name of a voter is an underscore, a `v` and both numbers with an underscore between them. -/
theorem toList_voterName (i k : Nat) :
    (voterName i k).toList = '_' :: 'v' :: (Nat.toDigits 10 i ++ '_' :: Nat.toDigits 10 k) := by
  simp only [voterName, String.toList_append, toList_toString]
  simp

/-- Lists of digits end where the first underscore stands. -/
theorem digits_append_injective {ds ds' cs cs' : List Char} (hds : ∀ c ∈ ds, c.isDigit = true)
    (hds' : ∀ c ∈ ds', c.isDigit = true) (h : ds ++ '_' :: cs = ds' ++ '_' :: cs') :
    ds = ds' ∧ cs = cs' := by
  have hsep : '_'.isDigit = false := by decide
  have htake := congrArg (List.takeWhile Char.isDigit) h
  rw [List.takeWhile_append_of_pos hds, List.takeWhile_append_of_pos hds',
    List.takeWhile_cons_of_neg (by simp [hsep]), List.takeWhile_cons_of_neg (by simp [hsep]),
    List.append_nil, List.append_nil] at htake
  subst htake
  rw [List.append_cancel_left_eq] at h
  exact ⟨rfl, (List.cons.inj h).2⟩

/-- Different voters have different variables. -/
theorem voterName_injective (h : voterName i k = voterName j l) : i = j ∧ k = l := by
  have hlists := congrArg String.toList h
  rw [toList_voterName, toList_voterName] at hlists
  obtain ⟨hi, hk⟩ := digits_append_injective (fun _ => isDigit_of_mem_toDigits)
    (fun _ => isDigit_of_mem_toDigits) (List.cons.inj (List.cons.inj hlists).2).2
  exact ⟨toDigits_injective hi, toDigits_injective hk⟩

/-- No name of a voter is one of a label. -/
theorem voterName_ne_variableName : voterName i k ≠ Label.variableName l := by
  intro h
  have hlists := congrArg String.toList h
  rw [toList_voterName, Label.toList_variableName] at hlists
  simp at hlists

/-- No name of a voter is one that a converter gives. -/
theorem not_auxiliary_voterName (i k : Nat) : ¬ Converter.Auxiliary "_aux" (voterName i k) := by
  intro h
  obtain ⟨cs, hcs⟩ := toList_of_auxiliary h
  rw [toList_voterName] at hcs
  simp at hcs

end Voters

/-! ### Names and texts -/

/-- A variable is **internal** when it stands for a label, for a compound formula or for a voter. -/
def IsInternal (v : String) : Prop :=
  (∃ l, v = Label.variableName l) ∨ Converter.Auxiliary Converter.standard.stem v ∨
    ∃ i k, v = voterName i k

/-- Internal names start with an underscore. -/
theorem IsInternal.exists_toList {v : String} (h : IsInternal v) : ∃ cs, v.toList = '_' :: cs := by
  rcases h with ⟨l, rfl⟩ | haux | ⟨i, k, rfl⟩
  · exact ⟨_, Label.toList_variableName l⟩
  · obtain ⟨cs, hcs⟩ := toList_of_auxiliary haux
    exact ⟨_, hcs⟩
  · exact ⟨_, toList_voterName i k⟩

/-- No internal name is a word. -/
theorem IsInternal.not_isWord {v : String} (h : IsInternal v) : ¬ IsWord v := by
  obtain ⟨cs, hcs⟩ := h.exists_toList
  intro hword
  exact hword.head?_ne (by rw [hcs, List.head?_cons])

/-- A text that starts with an underscore is refused there. -/
theorem Formula.parse_of_underscore {text : String} {cs : List Char}
    (h : text.toList = '_' :: cs) :
    Formula.parse text = .error (.ofCause (.malformed ⟨0, .unexpectedCharacter '_'⟩)) := by
  have hatom : Token.isAtomChar '_' = false := by decide
  have hblank : Token.isBlank '_' = false := by decide
  have hsymbol : Token.symbol? '_' = none := by decide
  have hscan : Token.scan? text = .error (0, '_') := by
    rw [Token.scan?, h, Token.scanFrom?, hatom, hblank, hsymbol]
    · rfl
    · simp
  rw [Formula.parse, Formula.parse?, hscan]
  rfl

/-- An internal variable cannot be declared. -/
theorem IsInternal.declare_eq_error {v : String} (h : IsInternal v) (s : Scenario) :
    s.declare v = .error (.failure (.malformed ⟨0, .unexpectedCharacter '_'⟩)
      [.declaringVariable v]) := by
  obtain ⟨cs, hcs⟩ := h.exists_toList
  rw [Scenario.declare, Formula.parse_of_underscore hcs]
  rfl

/-- **Internal names never clash.** Different labels have different variables, and so have different
voters. The variable of a label is read back as this label, if it is a count, and no auxiliary
variable of the standard converter and no variable of a voter is read as a label. The three families
have no variable in common, and none of them has one that is an atom of the formula of a text or
that can be declared. -/
theorem internal_names_exact :
    Function.Injective Label.variableName ∧
    (Function.Injective fun p : Nat × Nat => voterName p.1 p.2) ∧
    (∀ l, Label.ofVariable? (Label.variableName l) = some l ↔ l < Count.limit) ∧
    (∀ v, Converter.Auxiliary Converter.standard.stem v → Label.ofVariable? v = none) ∧
    (∀ i k, Label.ofVariable? (voterName i k) = none) ∧
    (∀ l, ¬ Converter.Auxiliary Converter.standard.stem (Label.variableName l)) ∧
    (∀ i k, ¬ Converter.Auxiliary Converter.standard.stem (voterName i k)) ∧
    (∀ i k l, voterName i k ≠ Label.variableName l) ∧
    ∀ v, IsInternal v →
      (∀ text f, Formula.parse text = .ok f → v ∉ f.vars) ∧
      ∀ s : Scenario, s.declare v = .error (.failure
        (.malformed ⟨0, .unexpectedCharacter '_'⟩) [.declaringVariable v]) := by
  refine ⟨fun _ _ => Label.variableName_injective, ?_, fun _ => Label.ofVariable?_variableName_iff,
    fun v hv => ?_, fun i k => ?_, Label.not_auxiliary_variableName, not_auxiliary_voterName,
    fun _ _ _ => voterName_ne_variableName, fun v hv => ⟨fun text f hf hmem => ?_, fun s => ?_⟩⟩
  · rintro ⟨i, k⟩ ⟨j, l⟩ h
    obtain ⟨rfl, rfl⟩ := voterName_injective h
    rfl
  · obtain ⟨cs, hcs⟩ := toList_of_auxiliary hv
    simp [Label.ofVariable?, hcs]
  · simp [Label.ofVariable?, toList_voterName]
  · exact hv.not_isWord (Formula.parse_readable hf v hmem)
  · exact hv.declare_eq_error s

end JudgmentAggregation
