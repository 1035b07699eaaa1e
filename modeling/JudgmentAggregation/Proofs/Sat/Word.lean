import JudgmentAggregation.Sat.Word
import Mathlib.Data.Set.Operations

/-!
# Words for variables and literals

The word of a literal stands for a literal of a number (`WordLiteral.toLiteral`), and no two words
stand for the same one. The opposite of a word is the word of the opposite literal
(`WordLiteral.negate_eq_ok_iff`); of all words only −2⁶³ has none.

Read as the word of a literal, the word of a variable below 2⁶³ stands for the positive literal of
the variable, and that of any other variable for the negative literal of the number that is missing
to 2⁶⁴. So below 2⁶³ a variable and a sign are found again in their literal. From 2⁶³ on the sign is
always the wrong one, and beyond 2⁶³ the literals are those of another variable
(`WordVariable.literal_exact`).
-/

namespace JudgmentAggregation

/-- The opposite literal has the opposite number. -/
theorem Literal.toInt_negate (k : Literal Nat) : k.negate.toInt = -k.toInt := by
  obtain ⟨n, b⟩ := k
  cases b <;> simp [negate, toInt]

namespace WordLiteral

variable {l m : WordLiteral}

/-- A literal is positive when its number is. -/
theorem isPositive_iff : l.isPositive = true ↔ 0 < l.word.toInt := by
  rw [isPositive, decide_eq_true_iff, Int64.lt_iff_toInt_lt, Int64.toInt_zero]

/-- A word stands for a literal if it is the integer of the literal. -/
theorem toLiteral_eq_iff {k : Literal Nat} :
    l.toLiteral = k ↔ 0 < k.var ∧ l.word.toInt = k.toInt := by
  have hne : l.word.toInt ≠ 0 := fun h => l.ne_zero (Int64.toInt_inj.1 h)
  obtain ⟨n, b⟩ := k
  rw [toLiteral, Literal.mk.injEq]
  cases b with
  | true =>
    rw [isPositive_iff]
    show _ ↔ 0 < n ∧ l.word.toInt = n
    omega
  | false =>
    rw [← Bool.not_eq_true, isPositive_iff]
    show _ ↔ 0 < n ∧ l.word.toInt = -n
    omega

theorem toInt_eq (l : WordLiteral) : l.word.toInt = l.toLiteral.toInt :=
  (toLiteral_eq_iff.1 rfl).2

/-- Different words stand for different literals. -/
theorem toLiteral_injective : Function.Injective toLiteral := by
  intro l m h
  have hint : l.word.toInt = m.word.toInt := by rw [toInt_eq, toInt_eq, h]
  obtain ⟨x, hx⟩ := l
  obtain ⟨y, hy⟩ := m
  obtain rfl : x = y := Int64.toInt_inj.1 hint
  rfl

/-- The variable of a word is that of its literal. -/
theorem toNat_var (l : WordLiteral) : l.var.word.toNat = l.toLiteral.var := by
  have lower := Int64.le_toInt l.word
  have upper := Int64.toInt_lt l.word
  have h : l.word.toInt.natAbs < 18446744073709551616 := by omega
  exact UInt64.toNat_ofNat_of_lt h

/-- No word stands for the positive literal of 2⁶³. -/
theorem toLiteral_ne_pos (l : WordLiteral) : l.toLiteral ≠ .pos 9223372036854775808 := by
  intro h
  have hint : l.word.toInt = (9223372036854775808 : Nat) := (toLiteral_eq_iff.1 h).2
  have upper := Int64.toInt_lt l.word
  omega

/-- The variable of a word is below 2⁶³, unless the word is −2⁶³. -/
theorem toNat_var_lt_iff : l.var.word.toNat < 9223372036854775808 ↔ l.word ≠ Int64.minValue := by
  have lower := Int64.le_toInt l.word
  have upper := Int64.toInt_lt l.word
  have hmin : l.word = Int64.minValue ↔ l.word.toInt = -9223372036854775808 :=
    Int64.toInt_inj.symm
  rw [toNat_var, Ne, hmin]
  show l.word.toInt.natAbs < _ ↔ _
  omega

/-! ### The opposite of a word -/

/-- The opposite of a word is the word of the opposite literal. The word −2⁶³ has none. -/
theorem negate_cases (l : WordLiteral) :
    (∃ m, l.negate = .ok m ∧ m.toLiteral = l.toLiteral.negate) ∨
      l.negate = .error .fault ∧ l.toLiteral = .neg 9223372036854775808 := by
  rw [negate]
  by_cases hmin : l.word = Int64.minValue
  · rw [if_pos hmin]
    exact .inr ⟨rfl, toLiteral_eq_iff.2 ⟨by decide, by rw [hmin]; rfl⟩⟩
  · -- The opposite number is in the range of the signed words, so that nothing wraps around.
    have hne : -l.word ≠ 0 := Int64.neg_ne_zero.2 l.ne_zero
    have hpos : 0 < l.toLiteral.var := (toLiteral_eq_iff.1 rfl).1
    have hneg : (-l.word).toInt = -l.word.toInt := by
      have lower := Int64.le_toInt l.word
      have upper := Int64.toInt_lt l.word
      have hlow : l.word.toInt ≠ -9223372036854775808 := fun h => hmin (Int64.toInt_inj.1 h)
      rw [Int64.toInt_neg]
      exact Int.bmod_eq_of_le (by omega) (by omega)
    rw [if_neg hmin, ofWord, dif_pos hne]
    refine .inl ⟨⟨-l.word, hne⟩, rfl, toLiteral_eq_iff.2 ⟨hpos, ?_⟩⟩
    rw [hneg, toInt_eq, Literal.toInt_negate]

/-- The opposite of a word stands for the opposite literal. -/
theorem negate_eq_ok_iff : l.negate = .ok m ↔ m.toLiteral = l.toLiteral.negate := by
  obtain ⟨k, hk, hopposite⟩ | ⟨hfault, hl⟩ := l.negate_cases
  · rw [hk, Except.ok.injEq, ← hopposite]
    exact ⟨fun h => h ▸ rfl, fun h => toLiteral_injective h.symm⟩
  · rw [hfault, hl]
    exact iff_of_false (by simp) m.toLiteral_ne_pos

/-- Only the word of the negative literal of 2⁶³ has no opposite. -/
theorem negate_eq_fault_iff :
    l.negate = .error .fault ↔ l.toLiteral = .neg 9223372036854775808 := by
  obtain ⟨k, hk, hopposite⟩ | ⟨hfault, hl⟩ := l.negate_cases
  · rw [hk]
    refine iff_of_false (by simp) fun hl => k.toLiteral_ne_pos ?_
    rw [hopposite, hl]
    rfl
  · exact iff_of_true hfault hl

/-- A word is the opposite of its opposite. -/
theorem negate_comm : l.negate = .ok m ↔ m.negate = .ok l := by
  rw [negate_eq_ok_iff, negate_eq_ok_iff]
  exact ⟨fun h => by rw [h, Literal.negate_negate], fun h => by rw [h, Literal.negate_negate]⟩

end WordLiteral

namespace WordVariable

open WordLiteral

variable {v w : WordVariable} {b : Bool} {l : WordLiteral}

theorem toNat_pos (v : WordVariable) : 0 < v.word.toNat :=
  Nat.pos_of_ne_zero fun h => v.ne_zero (UInt64.toNat_inj.1 h)

theorem eq_of_toNat (h : v.word.toNat = w.word.toNat) : v = w := by
  obtain ⟨x, hx⟩ := v
  obtain ⟨y, hy⟩ := w
  obtain rfl : x = y := UInt64.toNat_inj.1 h
  rfl

/-! ### The literals of a variable -/

/-- The word of a positive literal is the variable, or 2⁶⁴ less. -/
theorem toInt_positive (v : WordVariable) : v.positive.word.toInt =
    if v.word.toNat < 9223372036854775808 then (v.word.toNat : Int)
    else v.word.toNat - 18446744073709551616 := by
  have h : v.positive.word.toInt =
      if 2 * v.word.toNat < 18446744073709551616 then (v.word.toNat : Int)
      else v.word.toNat - (18446744073709551616 : Nat) := BitVec.toInt_eq_toNat_cond _
  rw [h]
  split <;> split <;> omega

/-- The positive literal is negative from 2⁶³ on. -/
theorem positive_neg_iff : v.positive.word < 0 ↔ 9223372036854775808 ≤ v.word.toNat := by
  have hlt : v.word.toNat < 18446744073709551616 := v.word.toNat_lt
  rw [Int64.lt_iff_toInt_lt, Int64.toInt_zero, toInt_positive]
  split <;> omega

/-- Below 2⁶³, the positive literal is that of the variable. -/
theorem toLiteral_positive_of_lt (h : v.word.toNat < 9223372036854775808) :
    v.positive.toLiteral = .pos v.word.toNat := by
  refine toLiteral_eq_iff.2 ⟨v.toNat_pos, ?_⟩
  rw [toInt_positive, if_pos h]
  rfl

/-- From 2⁶³ on, the positive literal is the negative one of the number missing to 2⁶⁴. -/
theorem toLiteral_positive_of_le (h : 9223372036854775808 ≤ v.word.toNat) :
    v.positive.toLiteral = .neg (18446744073709551616 - v.word.toNat) := by
  have hlt : v.word.toNat < 18446744073709551616 := v.word.toNat_lt
  refine toLiteral_eq_iff.2 ⟨Nat.sub_pos_of_lt hlt, ?_⟩
  rw [toInt_positive, if_neg (Nat.not_lt.2 h)]
  show _ = -((18446744073709551616 - v.word.toNat : Nat) : Int)
  omega

/-- The literal with a sign is the positive one or its opposite. -/
theorem literal_eq_ok_iff : v.literal b = .ok l ↔
    l.toLiteral = if b then v.positive.toLiteral else v.positive.toLiteral.negate := by
  cases b with
  | true =>
    show Except.ok v.positive = .ok l ↔ l.toLiteral = v.positive.toLiteral
    rw [toLiteral_injective.eq_iff, Except.ok.injEq, eq_comm]
  | false => exact negate_eq_ok_iff

/-- A word is the literal of a variable below 2⁶³ with a sign exactly if it stands for that. -/
theorem literal_eq_ok_iff_of_lt (h : v.word.toNat < 9223372036854775808) :
    v.literal b = .ok l ↔ l.toLiteral = ⟨v.word.toNat, b⟩ := by
  rw [literal_eq_ok_iff, toLiteral_positive_of_lt h]
  cases b <;> rfl

/-- From 2⁶³ on the sign is the opposite one, and the number is the one that is missing to 2⁶⁴. -/
theorem literal_eq_ok_iff_of_le (h : 9223372036854775808 ≤ v.word.toNat) :
    v.literal b = .ok l ↔ l.toLiteral = ⟨18446744073709551616 - v.word.toNat, !b⟩ := by
  rw [literal_eq_ok_iff, toLiteral_positive_of_le h]
  cases b <;> rfl

/-- Only 2⁶³ is without a negative literal. -/
theorem literal_eq_fault_iff :
    v.literal b = .error .fault ↔ v.word.toNat = 9223372036854775808 ∧ b = false := by
  cases b with
  | true => exact iff_of_false (by simp [literal]) (by simp)
  | false =>
    show v.positive.negate = .error .fault ↔ _
    rw [negate_eq_fault_iff, and_iff_left rfl]
    rcases Nat.lt_or_ge v.word.toNat 9223372036854775808 with h | h
    · rw [toLiteral_positive_of_lt h]
      exact iff_of_false (by simp [Literal.pos, Literal.neg]) (Nat.ne_of_lt h)
    · rw [toLiteral_positive_of_le h, Literal.neg, Literal.neg, Literal.mk.injEq, and_iff_left rfl]
      omega

/-- Below 2⁶³, there is a literal of the variable with either sign. -/
theorem exists_literal (h : v.word.toNat < 9223372036854775808) (b : Bool) :
    ∃ l, v.literal b = .ok l ∧ l.toLiteral = ⟨v.word.toNat, b⟩ := by
  cases b with
  | true => exact ⟨v.positive, rfl, toLiteral_positive_of_lt h⟩
  | false =>
    obtain ⟨l, hl, -⟩ | ⟨hfault, -⟩ := v.positive.negate_cases
    · exact ⟨l, hl, (literal_eq_ok_iff_of_lt h).1 hl⟩
    · have hv : v.literal false = .error .fault := hfault
      exact absurd (literal_eq_fault_iff.1 hv).1 (Nat.ne_of_lt h)

/-- From 2⁶³ on, the sign is the opposite one. -/
theorem isPositive_of_le (h : 9223372036854775808 ≤ v.word.toNat) (hl : v.literal b = .ok l) :
    l.isPositive = !b :=
  congrArg Literal.positive ((literal_eq_ok_iff_of_le h).1 hl)

/-- Where the sign is the right one, the variable is below 2⁶³. -/
theorem toNat_lt_of_isPositive (hl : v.literal b = .ok l) (hsign : l.isPositive = b) :
    v.word.toNat < 9223372036854775808 := by
  refine Nat.not_le.1 fun hle => (Bool.eq_not_self b).1 ?_
  rw [← isPositive_of_le hle hl, hsign]

/-- A variable beyond 2⁶³ has the literals of the variable that is missing to 2⁶⁴. -/
theorem literal_eq_literal_not (h : 9223372036854775808 < v.word.toNat)
    (hsum : v.word.toNat + w.word.toNat = 18446744073709551616) (b : Bool) :
    v.literal b = w.literal (!b) := by
  have hw : w.word.toNat < 9223372036854775808 := by omega
  obtain ⟨l, hl, hvar⟩ := exists_literal hw (!b)
  rw [hl, literal_eq_ok_iff_of_le (Nat.le_of_lt h), hvar, ← hsum, Nat.add_sub_cancel_left]

/-! ### Round trips -/

/-- A variable and a sign **round-trip** if they have a literal from which both are found again, and
which is the opposite of the literal with the other sign. -/
def RoundTrips (v : WordVariable) (b : Bool) : Prop :=
  ∃ l m, v.literal b = .ok l ∧ v.literal (!b) = .ok m ∧
    l.var = v ∧ l.isPositive = b ∧ m.negate = .ok l

/-- A variable round-trips exactly if it is below 2⁶³. -/
theorem roundTrips_iff : v.RoundTrips b ↔ v.word.toNat < 9223372036854775808 := by
  constructor
  · rintro ⟨l, m, hl, -, -, hsign, -⟩
    exact toNat_lt_of_isPositive hl hsign
  · intro h
    obtain ⟨l, hl, hvar⟩ := exists_literal h b
    obtain ⟨m, hm, hvar'⟩ := exists_literal h (!b)
    refine ⟨l, m, hl, hm, eq_of_toNat ?_, congrArg Literal.positive hvar, negate_eq_ok_iff.2 ?_⟩
    · rw [toNat_var, hvar]
    · rw [hvar, hvar', Literal.negate, Bool.not_not]

/-- Below 2⁶³, different variables or signs have different literals. -/
theorem literal_injOn : Set.InjOn (fun p : WordVariable × Bool => p.1.literal p.2)
    {p | p.1.word.toNat < 9223372036854775808} := by
  rintro ⟨v, b⟩ hv ⟨w, c⟩ hw (h : v.literal b = w.literal c)
  obtain ⟨l, hl, hvar⟩ := exists_literal hv b
  have hvar' := (literal_eq_ok_iff_of_lt hw).1 (h ▸ hl)
  obtain ⟨hnumber, hsign⟩ := Literal.mk.inj (hvar.symm.trans hvar')
  exact Prod.ext (eq_of_toNat hnumber) hsign

/-- A word is found again from its variable and its sign, unless it is −2⁶³. -/
theorem literal_var_iff : l.var.literal l.isPositive = .ok l ↔ l.word ≠ Int64.minValue := by
  rw [← toNat_var_lt_iff]
  refine ⟨fun h => toNat_lt_of_isPositive h rfl, fun h => (literal_eq_ok_iff_of_lt h).2 ?_⟩
  rw [toNat_var]
  rfl

/-- A variable and a sign round-trip exactly below 2⁶³. There, different variables or signs have
different literals, and the opposite of a literal is the one with the other sign, of which the
literal is the opposite in turn. Every word but −2⁶³ is such a literal. From 2⁶³ on, the positive
literal is negative and no literal has the right sign. Beyond 2⁶³ the literals are shared with
another variable. For 2⁶³ itself, and for no other variable, the negative literal faults. -/
theorem literal_exact :
    (∀ (v : WordVariable) b, v.RoundTrips b ↔ v.word.toNat < 9223372036854775808) ∧
    Set.InjOn (fun p : WordVariable × Bool => p.1.literal p.2)
      {p | p.1.word.toNat < 9223372036854775808} ∧
    (∀ (v : WordVariable) b l, v.word.toNat < 9223372036854775808 → v.literal b = .ok l →
      ∃ m, v.literal (!b) = .ok m ∧ l.negate = .ok m ∧ m.negate = .ok l) ∧
    (∀ l : WordLiteral, l.var.literal l.isPositive = .ok l ↔ l.word ≠ Int64.minValue) ∧
    (∀ v : WordVariable, v.positive.word < 0 ↔ 9223372036854775808 ≤ v.word.toNat) ∧
    (∀ (v : WordVariable) b l, 9223372036854775808 ≤ v.word.toNat → v.literal b = .ok l →
      l.isPositive = !b) ∧
    (∀ v w : WordVariable, 9223372036854775808 < v.word.toNat →
      v.word.toNat + w.word.toNat = 18446744073709551616 → ∀ b, v.literal b = w.literal (!b)) ∧
    ∀ (v : WordVariable) b,
      v.literal b = .error .fault ↔ v.word.toNat = 9223372036854775808 ∧ b = false := by
  refine ⟨fun _ _ => roundTrips_iff, literal_injOn, fun v b l h hl => ?_, fun _ => literal_var_iff,
    fun _ => positive_neg_iff, fun _ _ _ => isPositive_of_le, fun _ _ => literal_eq_literal_not,
    fun _ _ => literal_eq_fault_iff⟩
  obtain ⟨l', m, hl', hm, -, -, hneg⟩ := (roundTrips_iff (b := b)).2 h
  obtain rfl : l = l' := Except.ok.inj (hl.symm.trans hl')
  exact ⟨m, hm, negate_comm.1 hneg, hneg⟩

/-- The greatest variable that round-trips, and the next one. The greatest variable of all has the
literals of the least one. -/
theorem literal_exact_boundaries :
    RoundTrips ⟨9223372036854775807, by decide⟩ false ∧
    literal ⟨9223372036854775808, by decide⟩ false = .error .fault ∧
    ¬ RoundTrips ⟨9223372036854775808, by decide⟩ true ∧
    literal ⟨18446744073709551615, by decide⟩ true = literal ⟨1, by decide⟩ false := by
  obtain ⟨hround, -, -, -, -, -, hshared, hfault⟩ := literal_exact
  refine ⟨(hround _ _).2 (by decide), (hfault _ _).2 ⟨rfl, rfl⟩, fun h => ?_, ?_⟩
  · exact absurd ((hround _ _).1 h) (by decide)
  · exact hshared _ _ (by decide) rfl true

end WordVariable

end JudgmentAggregation
