import JudgmentAggregation.Count

/-!
# Labels and internal names

The formulas of an agenda are known by labels, 1, 2, … In clauses a label `l` is the variable `_l`
followed by its decimal digits, and the `k`-th voter of the `i`-th group is the variable `_v`
followed by both numbers. No formula text has atoms that start with an underscore.
-/

namespace JudgmentAggregation

namespace Label

/-- The variable that stands for a label. -/
def variableName (l : Nat) : String :=
  "_l" ++ toString l

/-- Reads decimal digits after a number that is already read. -/
def readDigits? (n : Nat) : List Char → Option Nat
  | [] => some n
  | c :: cs =>
    if c.isDigit then readDigits? (10 * n + (c.toNat - '0'.toNat)) cs else none

/-- Reads a count: decimal digits, at least one, of a number that fits, behind an optional plus
sign. -/
def readCount? (cs : List Char) : Option Nat :=
  let digits := match cs with
    | '+' :: ds => ds
    | ds => ds
  if digits.isEmpty then none
  else (readDigits? 0 digits).filter (· < Count.limit)

/-- The label that a variable stands for, if it does. -/
def ofVariable? (name : String) : Option Nat :=
  match name.toList with
  | '_' :: 'l' :: cs => readCount? cs
  | _ => none

end Label

/-- The variable that stands for the `k`-th voter of the `i`-th group. -/
def voterName (i k : Nat) : String :=
  "_v" ++ toString i ++ "_" ++ toString k

end JudgmentAggregation
