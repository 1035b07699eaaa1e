import JudgmentAggregation.Cnf.Basic
import JudgmentAggregation.Count

/-!
# Numbering variables

An index gives names the numbers 1, 2, … in the order in which it meets them, and numbers without
a name, from the same row, to whoever needs variables that do not stand for anything outside.
-/

namespace JudgmentAggregation

/-- The numbers given to names, the last one first, and the count of all the numbers given. -/
structure VariableIndex where
  names : List (String × Nat)
  size : Nat

namespace VariableIndex

/-- The index that has given no number. -/
def empty : VariableIndex := ⟨[], 0⟩

/-- The number of a name, if it has one. -/
def get? (i : VariableIndex) (name : String) : Option Nat :=
  i.names.lookup name

/-- The name of a number, if it has one. -/
def nameOf? (i : VariableIndex) (v : Nat) : Option String :=
  (i.names.find? fun p => p.2 == v).map Prod.fst

/-- The name of a number, if it has one. Zero is not a number that an index gives; asking for it is
a fault. -/
def nameOf (i : VariableIndex) (v : Nat) : Result (Option String) :=
  if v = 0 then .error .fault else .ok (i.nameOf? v)

/-- The number of a name, given to it now if it has none. -/
def insert (name : String) (i : VariableIndex) : Nat × VariableIndex :=
  match i.get? name with
  | some v => (v, i)
  | none => (i.size + 1, ⟨(name, i.size + 1) :: i.names, i.size + 1⟩)

/-- The numbers of some names, each with its name. -/
def insertAll : List String → VariableIndex → List (String × Nat) × VariableIndex
  | [], i => ([], i)
  | name :: names, i =>
    let (v, i) := i.insert name
    let (ps, i) := insertAll names i
    ((name, v) :: ps, i)

/-- `n` more numbers without a name. -/
def allocate (n : Nat) (i : VariableIndex) : VariableIndex :=
  { i with size := i.size + n }

/-- A number without a name. -/
def anonymous (i : VariableIndex) : Nat × VariableIndex :=
  (i.size + 1, i.allocate 1)

/-- The greatest count of numbers that can be reserved: the entry of a name takes 24 bytes. -/
def capacity : Nat := Count.capacity 24

/-- `n` more numbers without a name, unless they go beyond the capacity. -/
def reserve (n : Nat) (i : VariableIndex) : Result VariableIndex :=
  if i.size + n ≤ capacity then .ok (i.allocate n) else .error .fault

/-- The literal on the number of its name. -/
def literal (l : Literal String) (i : VariableIndex) : Literal Nat × VariableIndex :=
  let (v, i) := i.insert l.var
  (⟨v, l.positive⟩, i)

/-- The clause on the numbers of its names. -/
def clause : Clause String → VariableIndex → Clause Nat × VariableIndex
  | [], i => ([], i)
  | l :: c, i =>
    let (l, i) := i.literal l
    let (c, i) := clause c i
    (l :: c, i)

/-- The CNF formula on the numbers of its names. -/
def cnf : Cnf String → VariableIndex → Cnf Nat × VariableIndex
  | [], i => ([], i)
  | c :: F, i =>
    let (c, i) := i.clause c
    let (F, i) := cnf F i
    (c :: F, i)

end VariableIndex

end JudgmentAggregation
