import JudgmentAggregation.Cnf.Basic
import JudgmentAggregation.Error

/-!
# Variables and literals as 64-bit words

A solver is given a variable as an unsigned 64-bit word and a literal as a signed one, neither of
them null. The positive literal of a variable is the same word read as a signed one, so that only
the variables below 2⁶³ have a positive word for it; the opposite of a literal is the opposite
number, which −2⁶³ does not have.

Of the literals that they are given, a solver and an encoder see the lower 32 bits only. Those of
variables below 2³¹ are the same then (`Literal.low_of_lt`).
-/

namespace JudgmentAggregation

/-- A variable: an unsigned word that is not null. -/
structure WordVariable where
  word : UInt64
  ne_zero : word ≠ 0
deriving DecidableEq

/-- A literal: a signed word that is not null. -/
structure WordLiteral where
  word : Int64
  ne_zero : word ≠ 0
deriving DecidableEq

namespace WordVariable

/-- The variable of a word. -/
def ofWord (w : UInt64) : Result WordVariable :=
  if h : w ≠ 0 then .ok ⟨w, h⟩ else .error .fault

/-- The variable of a signed 32-bit word, which must not be negative. -/
def ofInt32 (w : Int32) : Result WordVariable :=
  if w < 0 then .error .fault else ofWord w.toInt.toNat.toUInt64

/-- The positive literal of a variable. -/
def positive (v : WordVariable) : WordLiteral where
  word := v.word.toInt64
  ne_zero h := v.ne_zero (by rw [← UInt64.toUInt64_toInt64 v.word, h]; rfl)

end WordVariable

namespace WordLiteral

/-- The literal of a word. -/
def ofWord (w : Int64) : Result WordLiteral :=
  if h : w ≠ 0 then .ok ⟨w, h⟩ else .error .fault

/-- The literal of a signed 32-bit word. -/
def ofInt32 (w : Int32) : Result WordLiteral :=
  ofWord w.toInt64

/-- The opposite literal. -/
def negate (l : WordLiteral) : Result WordLiteral :=
  if l.word = Int64.minValue then .error .fault else ofWord (-l.word)

/-- The variable of a literal: its absolute value. -/
def var (l : WordLiteral) : WordVariable where
  word := l.word.toInt.natAbs.toUInt64
  ne_zero h := by
    have hn : l.word.toInt.natAbs % 2 ^ 64 = 0 := by
      simpa using congrArg UInt64.toNat h
    have lower := Int64.le_toInt l.word
    have upper := Int64.toInt_lt l.word
    have : l.word.toInt = 0 := by omega
    exact l.ne_zero (Int64.toInt_inj.1 this)

/-- Whether a literal is positive. -/
def isPositive (l : WordLiteral) : Bool :=
  0 < l.word

/-- The literal without its word, for a solver. -/
def toLiteral (l : WordLiteral) : Literal Nat :=
  ⟨l.word.toInt.natAbs, l.isPositive⟩

end WordLiteral

/-- The literal of a variable with a sign. -/
def WordVariable.literal (v : WordVariable) (positive : Bool) : Result WordLiteral :=
  if positive then .ok v.positive else v.positive.negate

/-! ### The lower 32 bits -/

namespace Word32

/-- The signed number in the lower 32 bits of a number. -/
def low (i : Int) : Int :=
  i.bmod 4294967296

/-- The number itself, if it is a signed 32-bit word. -/
def check (i : Int) : Result Int :=
  if -2147483648 ≤ i ∧ i < 2147483648 then .ok i else .error .fault

theorem low_of_lt {i : Int} (hle : -2147483648 ≤ i) (h : i < 2147483648) : low i = i :=
  Int.bmod_eq_of_le (by omega) (by omega)

theorem check_eq_ok {i : Int} (hle : -2147483648 ≤ i) (h : i < 2147483648) : check i = .ok i :=
  if_pos ⟨hle, h⟩

end Word32

namespace Literal

/-- The integer that stands for a literal. -/
def toInt (l : Literal Nat) : Int :=
  if l.positive then l.var else -l.var

/-- The literal that is left in the lower 32 bits of a literal. -/
def low (l : Literal Nat) : Literal Nat :=
  let i := Word32.low l.toInt
  ⟨i.natAbs, 0 < i⟩

/-- The literal that comes back in the lower 32 bits of a literal, which must not be null. -/
def narrow (l : Literal Nat) : Result (Literal Nat) :=
  if l.low.var = 0 then .error .fault else .ok l.low

/-- The text of the integer that stands for a literal. -/
def digits (l : Literal Nat) : String :=
  toString l.toInt

theorem low_of_lt {l : Literal Nat} (hpos : 0 < l.var) (h : l.var < 2147483648) :
    l.low = l := by
  obtain ⟨v, b⟩ := l
  simp only at hpos h
  cases b with
  | false => simp [low, toInt, Word32.low_of_lt (i := -v) (by omega) (by omega)]
  | true => simpa [low, toInt, Word32.low_of_lt (i := v) (by omega) (by omega)] using hpos

theorem narrow_of_lt {l : Literal Nat} (hpos : 0 < l.var) (h : l.var < 2147483648) :
    l.narrow = .ok l := by
  rw [narrow, low_of_lt hpos h, if_neg (Nat.ne_of_gt hpos)]

end Literal

/-- The text of a clause: its literals as integers, with blanks between them. -/
def Clause.digits (c : Clause Nat) : String :=
  " ".intercalate (c.map Literal.digits)

end JudgmentAggregation
