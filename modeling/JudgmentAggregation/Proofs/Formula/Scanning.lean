import JudgmentAggregation.Proofs.Formula.Grammar
import JudgmentAggregation.Proofs.ListFacts

/-!
# The scanner cuts a text into the tokens that it spells

A character starts tokens of one kind only, so a text spells at most one list of tokens. When the
scanner comes to a character it may be in the middle of a word; what is left to be spelled then is
the part of the word that it has read, put back in front of the rest of the text. With this
invariant the scanner gives tokens exactly if the text spells them (`Token.scan?_eq_ok_iff`).
-/

namespace JudgmentAggregation

namespace Token

variable {c : Char} {cs word : List Char} {t : Token} {ts us : List Token} {p : Nat}
  {done : List Located}

/-! ### Kinds of characters -/

/-- The characters of words lie between `0` and `z`. -/
theorem range_of_isAtomChar (h : isAtomChar c = true) : 48 ≤ c.toNat ∧ c.toNat ≤ 122 := by
  -- Upper case, lower case and digits.
  have hcode : (decide (65 ≤ c.val ∧ c.val ≤ 90) || (decide (97 ≤ c.val) && decide (c.val ≤ 122)) ||
      (decide (48 ≤ c.val) && decide (c.val ≤ 57))) = true := h
  simp only [Bool.or_eq_true, Bool.and_eq_true, decide_eq_true_eq, UInt32.le_iff_toNat_le,
    UInt32.reduceToNat] at hcode
  rw [Char.toNat]
  omega

/-- No blank is a character of words. -/
theorem not_isAtomChar_of_isBlank (h : isBlank c = true) : isAtomChar c = false := by
  rw [Bool.eq_false_iff]
  intro hword
  have hrange := range_of_isAtomChar hword
  simp only [isBlank, Bool.or_eq_true, Bool.and_eq_true, decide_eq_true_eq, beq_iff_eq] at h
  omega

/-- A symbol is one of five characters, none of which is a blank, a letter, a digit or the first
character of the arrow. -/
theorem of_symbol?_eq_some (h : symbol? c = some t) :
    isAtomChar c = false ∧ isBlank c = false ∧ c ≠ '-' := by
  rw [symbol?.eq_def] at h
  split at h <;> cases h <;> decide

/-! ### What a text spells -/

/-- The ways in which a text that spells some tokens can go on from its first character. -/
theorem spells_cons (h : Spells (c :: cs) ts) :
    isBlank c = true ∧ Spells cs ts ∨
    (∃ t us, symbol? c = some t ∧ ts = t :: us ∧ Spells cs us) ∨
    (∃ cs' us, c = '-' ∧ cs = '>' :: cs' ∧ ts = .implies :: us ∧ Spells cs' us) ∨
    isAtomChar c = true ∧ ∃ name cs' us, IsWord name ∧ (∀ c ∈ cs'.head?, isAtomChar c = false) ∧
      c :: cs = name.toList ++ cs' ∧ ts = .atom name :: us ∧ Spells cs' us := by
  generalize hx : c :: cs = x at h
  cases h with
  | nil => cases hx
  | blank hc h =>
    cases hx
    exact .inl ⟨hc, h⟩
  | symbol hc h =>
    cases hx
    exact .inr (.inl ⟨_, _, hc, rfl, h⟩)
  | arrow h =>
    cases hx
    exact .inr (.inr (.inl ⟨_, _, rfl, rfl, rfl, h⟩))
  | @word name cs' us hname hcs h =>
    refine .inr (.inr (.inr ⟨?_, name, cs', us, hname, hcs, rfl, rfl, h⟩))
    -- A word is not empty, so the character is its first one.
    obtain ⟨d, ds, hds⟩ := List.exists_cons_of_ne_nil (l := name.toList)
      fun hnil => hname.1 (String.toList_eq_nil_iff.1 hnil)
    rw [hds, List.cons_append] at hx
    rw [(List.cons.inj hx).1]
    exact hname.2 d (hds ▸ List.mem_cons_self)

theorem spells_nil_iff : Spells [] ts ↔ ts = [] := by
  refine ⟨fun h => ?_, fun h => h ▸ .nil⟩
  generalize hx : [] = x at h
  cases h with
  | nil => rfl
  | blank | symbol | arrow => cases hx
  | word hname =>
    have hnil := (List.append_eq_nil_iff.1 hx.symm).1
    exact (hname.1 (String.toList_eq_nil_iff.1 hnil)).elim

theorem spells_blank_iff (hc : isBlank c = true) : Spells (c :: cs) ts ↔ Spells cs ts := by
  refine ⟨fun h => ?_, .blank hc⟩
  obtain ⟨-, h⟩ | ⟨t, us, ht, -, -⟩ | ⟨cs', us, rfl, -⟩ | ⟨hword, -⟩ := spells_cons h
  · exact h
  · rw [(of_symbol?_eq_some ht).2.1] at hc
    cases hc
  · exact absurd hc (by decide)
  · rw [not_isAtomChar_of_isBlank hc] at hword
    cases hword

theorem spells_symbol_iff (hc : symbol? c = some t) :
    Spells (c :: cs) ts ↔ ∃ us, ts = t :: us ∧ Spells cs us := by
  refine ⟨fun h => ?_, ?_⟩
  · obtain ⟨hword, hblank, harrow⟩ := of_symbol?_eq_some hc
    obtain ⟨hc', -⟩ | ⟨t', us, ht', rfl, hus⟩ | ⟨cs', us, rfl, -⟩ | ⟨hc', -⟩ := spells_cons h
    · rw [hblank] at hc'
      cases hc'
    · rw [hc] at ht'
      cases ht'
      exact ⟨us, rfl, hus⟩
    · exact absurd rfl harrow
    · rw [hword] at hc'
      cases hc'
  · rintro ⟨us, rfl, h⟩
    exact .symbol hc h

theorem spells_arrow_iff :
    Spells ('-' :: '>' :: cs) ts ↔ ∃ us, ts = .implies :: us ∧ Spells cs us := by
  refine ⟨fun h => ?_, ?_⟩
  · obtain ⟨hc, -⟩ | ⟨t, us, ht, -⟩ | ⟨cs', us, -, hcs, rfl, hus⟩ | ⟨hc, -⟩ := spells_cons h
    · exact absurd hc (by decide)
    · exact absurd rfl (of_symbol?_eq_some ht).2.2
    · cases hcs
      exact ⟨us, rfl, hus⟩
    · exact absurd hc (by decide)
  · rintro ⟨us, rfl, h⟩
    exact .arrow h

/-- A character that starts no token. -/
theorem not_spells_cons (hword : isAtomChar c = false) (hblank : isBlank c = false)
    (hsymbol : symbol? c = none) (harrow : ∀ cs', c = '-' → cs = '>' :: cs' → False) :
    ¬ Spells (c :: cs) ts := by
  intro h
  obtain ⟨hc, -⟩ | ⟨t, us, ht, -⟩ | ⟨cs', us, hc, hcs, -⟩ | ⟨hc, -⟩ := spells_cons h
  · rw [hblank] at hc
    cases hc
  · rw [hsymbol] at ht
    cases ht
  · exact harrow cs' hc hcs
  · rw [hword] at hc
    cases hc

/-- The atoms that a text spells are words. -/
theorem Spells.isWord (h : Spells cs ts) :
    ∀ name, .atom name ∈ ts → IsWord name := by
  induction h with
  | nil => exact fun name hname => by cases hname
  | blank _ _ ih => exact ih
  | symbol hc _ ih =>
    intro name hname
    rcases List.mem_cons.1 hname with rfl | hname
    · exact absurd rfl (symbol?_ne_atom hc name)
    · exact ih name hname
  | arrow _ ih =>
    intro name hname
    rcases List.mem_cons.1 hname with hname | hname
    · cases hname
    · exact ih name hname
  | word hword _ _ ih =>
    intro name hname
    rcases List.mem_cons.1 hname with hname | hname
    · cases hname
      exact hword
    · exact ih name hname

/-- Tokens whose atoms are words are spelled by a text, with a blank behind every word. -/
theorem exists_spells (h : ∀ name, .atom name ∈ ts → IsWord name) : ∃ cs, Spells cs ts := by
  induction ts with
  | nil => exact ⟨[], .nil⟩
  | cons t ts ih =>
    obtain ⟨cs, hcs⟩ := ih fun name hname => h name (List.mem_cons_of_mem t hname)
    cases t with
    | atom name =>
      have hblank : Spells (' ' :: cs) ts := .blank rfl hcs
      exact ⟨_, .word (h name List.mem_cons_self) (by simp [isAtomChar]) hblank⟩
    | not => exact ⟨'~' :: cs, .symbol rfl hcs⟩
    | and => exact ⟨'&' :: cs, .symbol rfl hcs⟩
    | or => exact ⟨'|' :: cs, .symbol rfl hcs⟩
    | implies => exact ⟨_, .arrow hcs⟩
    | leftParen => exact ⟨'(' :: cs, .symbol rfl hcs⟩
    | rightParen => exact ⟨')' :: cs, .symbol rfl hcs⟩

/-- The token of the part of a word that has been read, its last character first, if it ends here.
-/
def wordToken (word : List Char) : List Token :=
  if word.isEmpty then [] else [.atom (String.ofList word.reverse)]

/-- A word that ends where no letter and no digit follows is one token. -/
theorem spells_word_iff (hword : ∀ c ∈ word, isAtomChar c = true)
    (hcs : ∀ c ∈ cs.head?, isAtomChar c = false) :
    Spells (word.reverse ++ cs) ts ↔ ∃ us, ts = wordToken word ++ us ∧ Spells cs us := by
  rw [wordToken]
  cases hempty : word.isEmpty with
  | true =>
    obtain rfl := List.isEmpty_iff.1 hempty
    simp
  | false =>
    have hname : IsWord (String.ofList word.reverse) := by
      refine ⟨fun h => ?_, fun c hc => hword c (by simpa using hc)⟩
      have hnil := congrArg String.toList h
      simp at hnil
      simp [hnil] at hempty
    rw [if_neg Bool.false_ne_true]
    refine ⟨fun h => ?_, ?_⟩
    · obtain ⟨c, cs', hcons⟩ := List.exists_cons_of_ne_nil (l := word.reverse)
        fun hnil => by simp [List.reverse_eq_nil_iff.1 hnil] at hempty
      have hc : isAtomChar c = true :=
        hword c (List.mem_reverse.1 (hcons ▸ List.mem_cons_self))
      rw [hcons, List.cons_append] at h
      obtain ⟨hc', -⟩ | ⟨t, us, ht, -⟩ | ⟨cs', us, rfl, -⟩ |
        ⟨-, name, cs'', us, hname', hcs'', hx, rfl, hus⟩ := spells_cons h
      · rw [not_isAtomChar_of_isBlank hc'] at hc
        cases hc
      · rw [(of_symbol?_eq_some ht).1] at hc
        cases hc
      · exact absurd hc (by decide)
      · rw [← List.cons_append, ← hcons] at hx
        obtain ⟨hreverse, rfl⟩ := ListFacts.append_inj_of_head?
          (fun d hd => hword d (List.mem_reverse.1 hd)) hname'.2 hcs hcs'' hx
        exact ⟨us, by rw [hreverse, String.ofList_toList]; rfl, hus⟩
    · rintro ⟨us, rfl, h⟩
      have hspells := Spells.word hname hcs h
      rwa [String.toList_ofList] at hspells

/-! ### The scanner -/

/-- A word that has ended spells its token. -/
theorem map_endWord (p : Nat) (word : List Char) (done : List Located) :
    (endWord p word done).reverse.map Located.token =
      done.reverse.map Located.token ++ wordToken word := by
  rw [endWord, wordToken]
  cases word.isEmpty <;> simp

/-- What a text spells from the middle of a word, behind some tokens. -/
theorem exists_spells_word_iff (hword : ∀ c ∈ word, isAtomChar c = true)
    (hcs : ∀ c ∈ cs.head?, isAtomChar c = false) :
    (∃ us, ts = done.reverse.map Located.token ++ us ∧ Spells (word.reverse ++ cs) us) ↔
      ∃ us, ts = (endWord p word done).reverse.map Located.token ++ us ∧ Spells cs us := by
  simp only [spells_word_iff hword hcs, map_endWord]
  constructor
  · rintro ⟨_, rfl, us, rfl, hus⟩
    exact ⟨us, by rw [List.append_assoc], hus⟩
  · rintro ⟨us, rfl, hus⟩
    exact ⟨_, by rw [List.append_assoc], us, rfl, hus⟩

/-- One more token behind the word that ends. -/
theorem exists_spells_token_iff (q : Nat) (t : Token) {P : List Token → Prop} :
    (∃ us, ts = (endWord p word done).reverse.map Located.token ++ us ∧ ∃ vs, us = t :: vs ∧ P vs) ↔
      ∃ us, ts = (⟨q, t⟩ :: endWord p word done : List Located).reverse.map Located.token ++ us ∧
        P us := by
  rw [List.reverse_cons, List.map_append]
  constructor
  · rintro ⟨_, rfl, vs, rfl, hvs⟩
    exact ⟨vs, by simp, hvs⟩
  · rintro ⟨us, rfl, hus⟩
    exact ⟨_, by simp, us, rfl, hus⟩

theorem not_isAtomChar_head (hc : ¬ isAtomChar c = true) :
    ∀ d ∈ (c :: cs).head?, isAtomChar d = false := by
  simpa using hc

/-- The tokens given are those before the word being read, and what the word and the rest spell. -/
theorem scanFrom?_iff (hword : ∀ c ∈ word, isAtomChar c = true) :
    (∃ ls, scanFrom? p word done cs = .ok ls ∧ ls.map Located.token = ts) ↔
      ∃ us, ts = done.reverse.map Located.token ++ us ∧ Spells (word.reverse ++ cs) us := by
  induction p, word, done, cs using scanFrom?.induct with
  | case1 p word done =>
    rw [exists_spells_word_iff (p := p) hword (by simp), scanFrom?]
    simp [spells_nil_iff, eq_comm]
  | case2 p word done cs ih =>
    -- A word ends before whatever is not part of one, here before an arrow.
    rw [exists_spells_word_iff (p := p) hword (not_isAtomChar_head (by decide)), scanFrom?]
    simp only [spells_arrow_iff]
    rw [exists_spells_token_iff p .implies]
    exact ih (by simp)
  | case3 p word done c cs hnot hc ih =>
    have hword' : ∀ d ∈ c :: word, isAtomChar d = true := List.forall_mem_cons.2 ⟨hc, hword⟩
    rw [scanFrom?, if_pos hc]
    · simpa using ih hword'
    · exact hnot
  | case4 p word done c cs hnot hc hblank ih =>
    rw [exists_spells_word_iff (p := p) hword (not_isAtomChar_head hc), scanFrom?, if_neg hc,
      if_pos hblank]
    · simp only [spells_blank_iff hblank]
      exact ih (by simp)
    · exact hnot
  | case5 p word done c cs hnot hc hblank t ht ih =>
    rw [exists_spells_word_iff (p := p) hword (not_isAtomChar_head hc), scanFrom?, if_neg hc,
      if_neg hblank, ht]
    · simp only [spells_symbol_iff ht]
      rw [exists_spells_token_iff p t]
      exact ih (by simp)
    · exact hnot
  | case6 p word done c cs hnot hc hblank ht =>
    have hnone (us) : ¬ Spells (c :: cs) us :=
      not_spells_cons (Bool.eq_false_iff.2 hc) (Bool.eq_false_iff.2 hblank) ht hnot
    rw [exists_spells_word_iff (p := p) hword (not_isAtomChar_head hc), scanFrom?, if_neg hc,
      if_neg hblank, ht]
    · simp [hnone]
    · exact hnot

/-- The scanner gives some tokens exactly if the text spells them. -/
theorem scan?_eq_ok_iff {text : String} :
    (∃ ls, scan? text = .ok ls ∧ ls.map Located.token = ts) ↔ Spells text.toList ts := by
  rw [scan?, scanFrom?_iff (by simp)]
  simp

end Token

end JudgmentAggregation
