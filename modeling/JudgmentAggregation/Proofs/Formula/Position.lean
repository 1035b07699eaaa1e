import JudgmentAggregation.Proofs.Formula.Scanning

/-!
# Where the tokens of a text stand

A scan goes through a text from left to right. On its way from one byte offset to another it passes
blanks and tokens, each token as long as it can be (`Token.Passes`). It gets to the end of the text,
which is then cut into these tokens (`Token.Cut`), or it stops at a character that starts no token
(`Token.StopsAt`). The scanner lists the tokens with the offsets at which they start
(`Token.scan?_eq_ok_iff_cut`) or reports the character (`Token.scan?_eq_error_iff`). Every offset on
the way is the length in bytes of the text before it, so it is on a character boundary
(`Token.Passes.isValid`).
-/

namespace JudgmentAggregation

namespace Token

/-- A scan **passes** some tokens between two byte offsets, where the rest of the text follows each
of the offsets. -/
inductive Passes : Nat → List Char → List Located → Nat → List Char → Prop
  | refl {p : Nat} {cs : List Char} : Passes p cs [] p cs
  | blank {p q : Nat} {c : Char} {cs ds : List Char} {ls : List Located} (hc : isBlank c = true)
    (h : Passes (p + c.utf8Size) cs ls q ds) : Passes p (c :: cs) ls q ds
  | symbol {p q : Nat} {c : Char} {t : Token} {cs ds : List Char} {ls : List Located}
    (hc : symbol? c = some t) (h : Passes (p + c.utf8Size) cs ls q ds) :
    Passes p (c :: cs) (⟨p, t⟩ :: ls) q ds
  | arrow {p q : Nat} {cs ds : List Char} {ls : List Located}
    (h : Passes (p + "->".utf8ByteSize) cs ls q ds) :
    Passes p ('-' :: '>' :: cs) (⟨p, .implies⟩ :: ls) q ds
  | word {p q : Nat} {name : String} {cs ds : List Char} {ls : List Located} (hname : IsWord name)
    (hcs : ∀ c ∈ cs.head?, isAtomChar c = false) (h : Passes (p + name.utf8ByteSize) cs ls q ds) :
    Passes p (name.toList ++ cs) (⟨p, .atom name⟩ :: ls) q ds

/-- A character **starts no token** in front of the rest of a text: it is no letter, no digit, no
symbol and not the first character of an arrow. It is no blank either. -/
def Stuck (c : Char) (cs : List Char) : Prop :=
  isBlank c = false ∧ isAtomChar c = false ∧ symbol? c = none ∧
    ∀ ds, c = '-' → cs = '>' :: ds → False

/-- A text is **cut** into some tokens when a scan passes them on its way to the end. -/
def Cut (text : String) (ls : List Located) : Prop :=
  ∃ q, Passes 0 text.toList ls q []

/-- A scan of a text **stops** at an offset when it gets there and the character there starts no
token. -/
def StopsAt (text : String) (q : Nat) (c : Char) : Prop :=
  ∃ ls ds, Passes 0 text.toList ls q (c :: ds) ∧ Stuck c ds

variable {c : Char} {cs ds word : List Char} {t : Token} {ts : List Token} {l : Located}
  {p q : Nat} {ls done : List Located} {text name : String}

/-! ### Bytes -/

theorem utf8Size_of_isAtomChar (h : isAtomChar c = true) : c.utf8Size = 1 := by
  have hrange := range_of_isAtomChar h
  rw [Char.utf8Size_eq_one_iff, UInt32.le_iff_toNat_le]
  exact Nat.le_trans hrange.2 (by decide)

theorem utf8Size_of_symbol? (h : symbol? c = some t) : c.utf8Size = 1 := by
  rw [symbol?.eq_def] at h
  split at h <;> cases h <;> decide

theorem utf8ByteSize_ofList_cons (c : Char) (cs : List Char) :
    (String.ofList (c :: cs)).utf8ByteSize = c.utf8Size + (String.ofList cs).utf8ByteSize := by
  rw [String.ofList_cons, String.utf8ByteSize_append, String.utf8ByteSize_singleton]

/-- The letters and digits of a word take one byte each. -/
theorem utf8ByteSize_ofList (h : ∀ c ∈ cs, isAtomChar c = true) :
    (String.ofList cs).utf8ByteSize = cs.length := by
  induction cs with
  | nil => rfl
  | cons c cs ih =>
    obtain ⟨hc, hcs⟩ := List.forall_mem_cons.1 h
    rw [utf8ByteSize_ofList_cons, utf8Size_of_isAtomChar hc, ih hcs, List.length_cons, Nat.add_comm]

/-- A word has as many bytes as characters. -/
theorem utf8ByteSize_word (h : IsWord name) : name.utf8ByteSize = name.toList.length := by
  rw [← utf8ByteSize_ofList h.2, String.ofList_toList]

/-! ### The way of a scan -/

/-- What is passed spells the tokens that are found, before those of the rest. -/
theorem Passes.spells (h : Passes p cs ls q ds) (hds : Spells ds ts) :
    Spells cs (ls.map Located.token ++ ts) := by
  induction h with
  | refl => exact hds
  | blank hc _ ih => exact .blank hc (ih hds)
  | symbol hc _ ih => exact .symbol hc (ih hds)
  | arrow _ ih => exact .arrow (ih hds)
  | word hname hcs _ ih => exact .word hname hcs (ih hds)

/-- What a scan has passed is as long as its way in bytes. -/
theorem Passes.exists_append (h : Passes p cs ls q ds) :
    ∃ es, cs = es ++ ds ∧ q = p + (String.ofList es).utf8ByteSize := by
  induction h with
  | refl => exact ⟨[], rfl, rfl⟩
  | @blank p q c _ _ _ _ _ ih =>
    obtain ⟨es, rfl, rfl⟩ := ih
    exact ⟨c :: es, rfl, by rw [utf8ByteSize_ofList_cons, Nat.add_assoc]⟩
  | @symbol p q c _ _ _ _ _ _ ih =>
    obtain ⟨es, rfl, rfl⟩ := ih
    exact ⟨c :: es, rfl, by rw [utf8ByteSize_ofList_cons, Nat.add_assoc]⟩
  | arrow _ ih =>
    obtain ⟨es, rfl, rfl⟩ := ih
    refine ⟨"->".toList ++ es, rfl, ?_⟩
    rw [String.ofList_append, String.utf8ByteSize_append, String.ofList_toList, Nat.add_assoc]
  | @word p q name _ _ _ _ _ _ ih =>
    obtain ⟨es, rfl, rfl⟩ := ih
    refine ⟨name.toList ++ es, (List.append_assoc ..).symm, ?_⟩
    rw [String.ofList_append, String.utf8ByteSize_append, String.ofList_toList, Nat.add_assoc]

/-- A token starts where a scan gets to. -/
theorem Passes.of_mem (h : Passes p cs ls q ds) (hl : l ∈ ls) :
    ∃ ks es, Passes p cs ks l.position es := by
  induction h with
  | refl => cases hl
  | blank hc _ ih =>
    obtain ⟨ks, es, h⟩ := ih hl
    exact ⟨ks, es, .blank hc h⟩
  | symbol hc _ ih =>
    rcases List.mem_cons.1 hl with rfl | hl
    · exact ⟨[], _, .refl⟩
    · obtain ⟨ks, es, h⟩ := ih hl
      exact ⟨_, es, .symbol hc h⟩
  | arrow _ ih =>
    rcases List.mem_cons.1 hl with rfl | hl
    · exact ⟨[], _, .refl⟩
    · obtain ⟨ks, es, h⟩ := ih hl
      exact ⟨_, es, .arrow h⟩
  | word hname hcs _ ih =>
    rcases List.mem_cons.1 hl with rfl | hl
    · exact ⟨[], _, .refl⟩
    · obtain ⟨ks, es, h⟩ := ih hl
      exact ⟨_, es, .word hname hcs h⟩

/-- A text spells the tokens that it is cut into. -/
theorem Cut.spells (h : Cut text ls) : Spells text.toList (ls.map Located.token) := by
  obtain ⟨q, h⟩ := h
  simpa using h.spells .nil

/-- The offset that a scan of a text gets to is on a character boundary. -/
theorem Passes.isValid (h : Passes 0 text.toList ls q ds) : String.Pos.Raw.IsValid text ⟨q⟩ := by
  obtain ⟨es, htext, rfl⟩ := h.exists_append
  refine String.Pos.Raw.isValid_iff_exists_append.2 ⟨String.ofList es, String.ofList ds, ?_, ?_⟩
  · rw [← String.ofList_append, ← htext, String.ofList_toList]
  · rw [Nat.zero_add]
    rfl

/-- Every token stands at a character of the text. -/
theorem Cut.isValid (h : Cut text ls) (hl : l ∈ ls) : String.Pos.Raw.IsValid text ⟨l.position⟩ := by
  obtain ⟨q, h⟩ := h
  obtain ⟨ks, es, h⟩ := h.of_mem hl
  exact h.isValid

/-- A scan stops at a character of the text. -/
theorem StopsAt.isValid (h : StopsAt text q c) : String.Pos.Raw.IsValid text ⟨q⟩ := by
  obtain ⟨ls, ds, h, -⟩ := h
  exact h.isValid

/-- A letter or a digit starts a word that is as long as it can be. -/
theorem exists_word (hc : isAtomChar c = true) (cs : List Char) :
    ∃ name ds, IsWord name ∧ (∀ d ∈ ds.head?, isAtomChar d = false) ∧
      c :: cs = name.toList ++ ds := by
  refine ⟨String.ofList (c :: cs.takeWhile isAtomChar), cs.dropWhile isAtomChar, ⟨?_, ?_⟩, ?_, ?_⟩
  · rw [String.ofList_cons]
    simp
  · rw [String.toList_ofList]
    exact List.forall_mem_cons.2 ⟨hc, fun d hd => List.all_eq_true.1 List.all_takeWhile d hd⟩
  · intro d hd
    have hhead := List.head?_dropWhile_not isAtomChar cs
    rw [Option.mem_def.1 hd] at hhead
    exact hhead
  · rw [String.toList_ofList, List.cons_append, List.takeWhile_append_dropWhile]

/-- A scan that goes as far as it can gets to the end of the text or to a character that starts no
token. -/
theorem exists_passes (p : Nat) (cs : List Char) :
    ∃ ls q ds, Passes p cs ls q ds ∧ ∀ c es, ds = c :: es → Stuck c es := by
  match cs with
  | [] => exact ⟨[], p, [], .refl, by simp⟩
  | c :: cs =>
    by_cases hblank : isBlank c = true
    · obtain ⟨ls, q, ds, h, hds⟩ := exists_passes (p + c.utf8Size) cs
      exact ⟨ls, q, ds, .blank hblank h, hds⟩
    by_cases hword : isAtomChar c = true
    · obtain ⟨name, cs', hname, hcs', hcut⟩ := exists_word hword cs
      -- A word is not empty, so that the recursion gets shorter.
      have hlength : cs'.length ≤ cs.length := by
        have hne : name.toList.length ≠ 0 := fun h =>
          hname.1 (String.toList_eq_nil_iff.1 (List.length_eq_zero_iff.1 h))
        have hcons := congrArg List.length hcut
        rw [List.length_cons, List.length_append] at hcons
        omega
      obtain ⟨ls, q, ds, h, hds⟩ := exists_passes (p + name.utf8ByteSize) cs'
      rw [hcut]
      exact ⟨_, q, ds, .word hname hcs' h, hds⟩
    cases hsymbol : symbol? c with
    | some t =>
      obtain ⟨ls, q, ds, h, hds⟩ := exists_passes (p + c.utf8Size) cs
      exact ⟨_, q, ds, .symbol hsymbol h, hds⟩
    | none =>
      by_cases harrow : ∃ cs', c = '-' ∧ cs = '>' :: cs'
      · obtain ⟨cs', rfl, rfl⟩ := harrow
        obtain ⟨ls, q, ds, h, hds⟩ := exists_passes (p + "->".utf8ByteSize) cs'
        exact ⟨_, q, ds, .arrow h, hds⟩
      · refine ⟨[], p, c :: cs, .refl, fun d es hd => ?_⟩
        obtain ⟨rfl, rfl⟩ := List.cons.inj hd
        exact ⟨Bool.eq_false_iff.2 hblank, Bool.eq_false_iff.2 hword, hsymbol,
          fun cs' hc hcs => harrow ⟨cs', hc, hcs⟩⟩
termination_by cs.length

/-! ### The scanner follows the scan -/

theorem endWord_nil (p : Nat) (done : List Located) : endWord p [] done = done := rfl

/-- A word that has ended is put before the tokens that are done. -/
theorem endWord_word (h : IsWord name) :
    endWord (p + name.utf8ByteSize) name.toList.reverse done = ⟨p, .atom name⟩ :: done := by
  rw [endWord, if_neg (by simpa using h.1), List.length_reverse, utf8ByteSize_word h,
    Nat.add_sub_cancel, List.reverse_reverse, String.ofList_toList]

/-- A blank ends a word. -/
theorem scanFrom?_blank (hc : isBlank c = true) :
    scanFrom? p word done (c :: cs) =
      scanFrom? (p + c.utf8Size) [] (endWord p word done) cs := by
  have hword := not_isAtomChar_of_isBlank hc
  rw [scanFrom?, if_neg (by simp [hword]), if_pos hc]
  rintro cs' rfl
  cases hc

/-- A symbol ends a word and is put after it. -/
theorem scanFrom?_symbol (hc : symbol? c = some t) :
    scanFrom? p word done (c :: cs) =
      scanFrom? (p + c.utf8Size) [] (⟨p, t⟩ :: endWord p word done) cs := by
  obtain ⟨hword, hblank, harrow⟩ := of_symbol?_eq_some hc
  rw [scanFrom?, if_neg (by simp [hword]), if_neg (by simp [hblank]), hc, utf8Size_of_symbol? hc]
  exact fun cs' h => absurd h harrow

/-- The scanner stops at a character that starts no token. -/
theorem Stuck.scan (h : Stuck c cs) : scanFrom? p word done (c :: cs) = .error (p, c) := by
  obtain ⟨hblank, hword, hsymbol, harrow⟩ := h
  rw [scanFrom?, if_neg (by simp [hword]), if_neg (by simp [hblank]), hsymbol]
  exact harrow

/-- A run of letters and digits is read into the word. -/
theorem scanFrom?_append (h : ∀ c ∈ cs, isAtomChar c = true) :
    scanFrom? p word done (cs ++ ds) =
      scanFrom? (p + cs.length) (cs.reverse ++ word) done ds := by
  induction cs generalizing p word with
  | nil => rfl
  | cons c cs ih =>
    obtain ⟨hc, hcs⟩ := List.forall_mem_cons.1 h
    rw [List.cons_append, scanFrom?, if_pos hc, ih hcs]
    · rw [List.length_cons, List.reverse_cons, List.append_assoc, List.singleton_append,
        Nat.add_assoc, Nat.add_comm 1]
    · rintro cs' rfl
      cases hc

/-- The word being read ends in front of anything but a letter or a digit. -/
theorem scanFrom?_endWord (h : ∀ c ∈ cs.head?, isAtomChar c = false) :
    scanFrom? p word done cs = scanFrom? p [] (endWord p word done) cs := by
  fun_cases scanFrom? p word done cs with
  | case1 => rw [scanFrom?, endWord_nil]
  | case2 cs => rw [scanFrom?, endWord_nil]
  | case3 c cs _ hc =>
    rw [h c rfl] at hc
    cases hc
  | case4 c cs _ _ hblank => rw [scanFrom?_blank hblank, endWord_nil]
  | case5 c cs _ _ _ t ht => rw [scanFrom?_symbol ht, endWord_nil, utf8Size_of_symbol? ht]
  | case6 c cs harrow hc hblank ht =>
    have hstuck : Stuck c cs := ⟨Bool.eq_false_iff.2 hblank, Bool.eq_false_iff.2 hc, ht, harrow⟩
    rw [hstuck.scan]

/-- The scanner lists the tokens that a scan passes. -/
theorem Passes.scan (h : Passes p cs ls q ds) (done : List Located) :
    scanFrom? p [] done cs = scanFrom? q [] (ls.reverse ++ done) ds := by
  induction h generalizing done with
  | refl => rfl
  | blank hc _ ih => rw [scanFrom?_blank hc, endWord_nil, ih]
  | symbol hc _ ih =>
    rw [scanFrom?_symbol hc, endWord_nil, ih, List.reverse_cons, List.append_assoc,
      List.singleton_append]
  | arrow _ ih =>
    have hsize : "->".utf8ByteSize = 2 := rfl
    rw [scanFrom?, endWord_nil, ← hsize, ih, List.reverse_cons, List.append_assoc,
      List.singleton_append]
  | word hname hcs _ ih =>
    rw [scanFrom?_append hname.2, List.append_nil, ← utf8ByteSize_word hname, scanFrom?_endWord hcs,
      endWord_word hname, ih, List.reverse_cons, List.append_assoc, List.singleton_append]

/-- **The tokens of a text.** The scanner lists the tokens that a text is cut into. -/
theorem scan?_eq_ok_iff_cut : scan? text = .ok ls ↔ Cut text ls := by
  have hscan {ks : List Located} {q : Nat} (h : Passes 0 text.toList ks q []) :
      scan? text = .ok ks := by
    rw [scan?, h.scan, scanFrom?, endWord_nil, List.append_nil, List.reverse_reverse]
  constructor
  · intro h
    obtain ⟨ks, q, ds, hpasses, hds⟩ := exists_passes 0 text.toList
    cases ds with
    | nil =>
      cases h.symm.trans (hscan hpasses)
      exact ⟨q, hpasses⟩
    | cons c ds =>
      rw [scan?, hpasses.scan, (hds c ds rfl).scan] at h
      cases h
  · rintro ⟨q, hpasses⟩
    exact hscan hpasses

/-- **The character that starts no token.** The scanner reports the character at which a scan stops.
-/
theorem scan?_eq_error_iff : scan? text = .error (q, c) ↔ StopsAt text q c := by
  constructor
  · intro h
    obtain ⟨ls, p, ds, hpasses, hds⟩ := exists_passes 0 text.toList
    rw [scan?, hpasses.scan] at h
    cases ds with
    | nil => cases h
    | cons d ds =>
      have hstuck := hds d ds rfl
      rw [hstuck.scan] at h
      cases h
      exact ⟨ls, ds, hpasses, hstuck⟩
  · rintro ⟨ls, ds, hpasses, hstuck⟩
    rw [scan?, hpasses.scan, hstuck.scan]

end Token

end JudgmentAggregation
