import JudgmentAggregation.Bound.Signed

/-!
# Clauses for lower bounds

A `BoundEncoder` writes clauses that say that a weighted sum reaches a bound; how it does so, and
with which auxiliary variables, is its own affair. It is given signed words and the first variable
that it may use, and it says which variable it leaves free. `BoundEncoder.Correct` is what is
required of it: for distinct variables and positive weights, a valuation of the given variables
extends to the auxiliary ones exactly when the sum reaches the bound. Nothing is required where the
words stand for anything else.

`BoundEncoder.thresholds` turns a term with a negative weight into one on the opposite literal, as
`w·l = w + (-w)·¬l`, and raises the bound by what the negative weights take away. Then it goes
through the terms from the greatest weight to the least. For each term it has a row of
**thresholds**: the numbers that the sum of this and the later terms may have to reach. A threshold
above zero has an auxiliary variable, and clauses say what follows from it for the next row: the
later terms alone must reach the threshold unless the literal is true, and they must reach what the
weight leaves of it in any case. A threshold that the later terms cannot meet exactly is as good as
the next sum that they can have, so that a row has no more thresholds than there are such sums.
-/

namespace JudgmentAggregation

/-- Writes clauses for "the sum of the terms is at least the bound" with auxiliary variables from
`first` on, and gives the first variable left free. -/
structure BoundEncoder where
  encode : (terms : List SignedTerm) → (bound first : Int) → Cnf Nat × Nat

namespace BoundEncoder

/-- The sums that an encoder has to deal with: positive weights that add up to less than 2⁶³, on
distinct variables below `first`, which is below 2³¹, and a bound that is neither trivial nor out of
reach. -/
structure Admits (terms : List (Term Nat)) (bound first : Nat) : Prop where
  weight_pos : ∀ t ∈ terms, 0 < t.weight
  total_lt : Term.total terms < 9223372036854775808
  nodup : (terms.map fun t => t.literal.var).Nodup
  var_pos : ∀ t ∈ terms, 0 < t.literal.var
  var_lt : ∀ t ∈ terms, t.literal.var < first
  first_lt : first < 2147483648
  bound_pos : 0 < bound
  bound_le : bound ≤ Term.total terms

/-- The clauses are about the variables of the terms and the auxiliary ones, and a valuation
extends to the auxiliary variables exactly when the sum reaches the bound. -/
def Correct (E : BoundEncoder) : Prop :=
  ∀ terms bound first, Admits terms bound first →
    let encoding := E.encode (terms.map Term.signed) bound first
    first ≤ encoding.2 ∧
    (∀ c ∈ encoding.1, ∀ l ∈ c, (∃ t ∈ terms, t.literal.var = l.var) ∨
      (first ≤ l.var ∧ l.var < encoding.2)) ∧
    ∀ A : Valuation Nat, (∃ A' : Valuation Nat, (∀ v < first, A' v = A v) ∧
      Cnf.eval A' encoding.1 = true) ↔ bound ≤ Term.value A terms

/-! ### Merging -/

section Merge

variable {α : Type} (le : α → α → Bool)

/-- Puts an entry into a list in order, where the later entries are put in by `rest`. -/
def mergeWith (a : α) (rest : List α → List α) : List α → List α
  | [] => a :: rest []
  | b :: bs => if le a b then a :: rest (b :: bs) else b :: mergeWith a rest bs

/-- The merge of two lists in order. It is `List.merge` by structural recursion, so that encodings
can be evaluated inside of proofs. -/
def merge : List α → List α → List α
  | [] => id
  | a :: as => mergeWith le a (merge as)

/-- The entries in order, those that are equal as they come. -/
def sort (as : List α) : List α :=
  as.foldr (fun a => merge le [a]) []

end Merge

/-! ### Rows of thresholds -/

/-- The sums of the parts of a list of weights in increasing order; nothing if they are more than
4096. -/
def partialSums : List Nat → List Nat
  | [] => [0]
  | w :: ws =>
    let sums := partialSums ws
    let more := (merge (fun m n => m ≤ n) sums (sums.map (w + ·))).eraseReps
    if 4096 < more.length then [] else more

/-- The least of some possible sums that reaches a bound; the bound itself if there is none. -/
def roundUp (sums : List Nat) (b : Nat) : Nat :=
  (sums.find? (b ≤ ·)).getD b

/-- The thresholds that matter after a term of weight `w`, when the later weights are `rest`
altogether and have the partial sums `sums`: those that are neither trivial nor out of reach. -/
def nextRow (w rest : Nat) (sums row : List Nat) : List Nat :=
  let row := merge (fun m n => n ≤ m) row (row.map (· - w))
  ((row.filter fun b => 0 < b ∧ b ≤ rest).map (roundUp sums)).eraseReps

/-- The literal for a threshold of a row whose variables start at `first`; none for a threshold that
is not in the row. -/
def threshold (row : List Nat) (first b : Nat) : Clause Nat :=
  match row.idxOf? b with
  | some j => [.pos (first + j)]
  | none => []

/-- What follows from the threshold `b`, whose variable is `v`, for the next row. -/
def thresholdClauses (t : Term Nat) (sums next : List Nat) (first v b : Nat) : Cnf Nat :=
  (.neg v :: t.literal :: threshold next first (roundUp sums b)) ::
    if b ≤ t.weight then []
    else [.neg v :: threshold next first (roundUp sums (b - t.weight))]

/-- The clauses for a row of thresholds, whose variables start at `first`, and for the later
rows. -/
def rows : List (Term Nat) → List Nat → Nat → Cnf Nat × Nat
  | [], _, first => ([], first)
  | t :: ts, row, first =>
    let sums := partialSums (ts.map Term.weight)
    let next := nextRow t.weight (Term.total ts) sums row
    let start := first + row.length
    let (F, free) := rows ts next start
    ((row.zipIdx first).flatMap (fun p => thresholdClauses t sums next start p.2 p.1) ++ F, free)

/-- The term that stands for one whose weight may be negative. -/
def turn (t : SignedTerm) : Term Nat :=
  ⟨if t.weight < 0 then t.literal.negate else t.literal, t.weight.natAbs⟩

/-- What the negative weights take away. -/
def deficit (ts : List SignedTerm) : Nat :=
  Count.total (ts.map fun t => (-t.weight).toNat)

/-- The encoder that goes from threshold to threshold, the greatest weights first. -/
def thresholds : BoundEncoder where
  encode terms bound first :=
    let ts := terms.map turn
    let bound := bound + deficit terms
    if bound ≤ 0 then ([], first.toNat)
    else if Term.total ts < bound then ([[]], first.toNat)
    else
      let (F, free) := rows (sort (fun t u => u.weight ≤ t.weight) ts) [bound.toNat] first.toNat
      ([.pos first.toNat] :: F, free)

end BoundEncoder

end JudgmentAggregation
