import JudgmentAggregation.Bound.Term
import JudgmentAggregation.Sat.Word

/-!
# Sums as words

An encoder is given words: a weight or a bound in 64 bits, a literal in 32 bits, all of them signed.
What does not fit is cut off, so that a weight of 2⁶³ or more is read as a negative number and a
literal on a variable of 2³¹ or more as one on another variable. All others stay what they are
(`Term.toWords_of_lt`).

The sums themselves are given as words too. The literals that count are made anew from their
variables, which the word −2⁶³ does not survive.
-/

namespace JudgmentAggregation

namespace Count

/-- The signed number that has the same 64 bits as a count. -/
def signed (n : Nat) : Int :=
  Int.bmod n limit

/-- A count below 2⁶³ is the same number when it is read as a signed one. -/
theorem signed_of_lt {n : Nat} (h : n < 9223372036854775808) : signed n = n := by
  have hlimit : limit = 18446744073709551616 := by decide
  rw [signed, hlimit]
  exact Int.bmod_eq_of_le (by omega) (by omega)

end Count

/-- A literal with a weight that may be negative. -/
structure SignedTerm where
  literal : Literal Nat
  weight : Int

namespace Term

/-- The term for a word with a weight. A word that counts is made anew from its variable. -/
def ofWord (l : WordLiteral) (weight : Nat) : Result (Term Nat) := do
  if weight = 0 then return ⟨l.toLiteral, weight⟩
  return ⟨(← l.var.literal l.isPositive).toLiteral, weight⟩

/-- The sum of some words with weights. -/
def ofWords (ts : List (WordLiteral × Nat)) : Result (List (Term Nat)) :=
  ts.mapM fun t => ofWord t.1 t.2

/-- The term with its weight as a signed number. -/
def signed (t : Term Nat) : SignedTerm :=
  ⟨t.literal, t.weight⟩

/-- The term as an encoder is given it. -/
def toWords (t : Term Nat) : SignedTerm :=
  ⟨t.literal.low, Count.signed t.weight⟩

theorem toWords_of_lt {t : Term Nat} (hpos : 0 < t.literal.var) (hvar : t.literal.var < 2147483648)
    (hweight : t.weight < 9223372036854775808) : t.toWords = t.signed := by
  rw [toWords, Literal.low_of_lt hpos hvar, Count.signed_of_lt hweight, signed]

end Term

end JudgmentAggregation
