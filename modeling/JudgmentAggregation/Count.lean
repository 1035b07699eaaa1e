import JudgmentAggregation.Error

/-!
# Counts

Voters, weights and their sums are counted in 64 bits. The operations here are those of the
natural numbers as long as the result fits; otherwise they fault. A sum of several counts faults
exactly when the whole sum does not fit (`sum_eq_check_total`): no partial sum is greater.
-/

namespace JudgmentAggregation

namespace Count

/-- The least number that is too large for a count: 2⁶⁴. -/
def limit : Nat := 18446744073709551616

/-- The number itself, if it fits. -/
def check (n : Nat) : Result Nat :=
  if n < limit then .ok n else .error .fault

/-- The sum of two counts. -/
def add (m n : Nat) : Result Nat :=
  check (m + n)

/-- The product of two counts. -/
def mul (m n : Nat) : Result Nat :=
  check (m * n)

/-- The difference of two counts, the second of which must not be greater. -/
def sub (m n : Nat) : Result Nat :=
  if n ≤ m then .ok (m - n) else .error .fault

/-- The sum of some counts, added to a count. -/
def sumFrom (total : Nat) : List Nat → Result Nat
  | [] => .ok total
  | n :: ns =>
    match add total n with
    | .ok total => sumFrom total ns
    | .error e => .error e

/-- The sum of some counts. -/
def sum (ns : List Nat) : Result Nat :=
  sumFrom 0 ns

/-- The factorial of a number. -/
def factorial : Nat → Result Nat
  | 0 => .ok 1
  | n + 1 =>
    match factorial n with
    | .ok m => mul (n + 1) m
    | .error e => .error e

/-- The greatest number of entries that a list can hold if an entry takes some bytes: 2⁶³ - 1 bytes
are all there is room for. -/
def capacity (bytes : Nat) : Nat :=
  9223372036854775807 / bytes

/-- The sum of some numbers, however large it is. -/
def total : List Nat → Nat
  | [] => 0
  | n :: ns => n + total ns

theorem sumFrom_eq_check {t : Nat} (ht : t < limit) (ns : List Nat) :
    sumFrom t ns = check (t + total ns) := by
  induction ns generalizing t with
  | nil => simp [sumFrom, total, check, ht]
  | cons n ns ih =>
    rw [total, ← Nat.add_assoc]
    by_cases h : t + n < limit
    · have hadd : add t n = .ok (t + n) := by simp [add, check, h]
      simpa only [sumFrom, hadd] using ih h
    · have hadd : add t n = .error .fault := by simp [add, check, h]
      have htotal : ¬ t + n + total ns < limit := by omega
      simp [sumFrom, hadd, check, htotal]

theorem sum_eq_check_total (ns : List Nat) : sum ns = check (total ns) := by
  have h : (0 : Nat) < limit := by decide
  rw [sum, sumFrom_eq_check h, Nat.zero_add]

end Count

end JudgmentAggregation
