import JudgmentAggregation.Count

/-!
# Listing choices

A `Lister` lists the choices of so many of some judgments, and the choices of one number from each
of several lists. In which order it does so, and whether it repeats itself, is its own affair. The
choices of judgments are counted first by means of the factorial of the number of judgments, which
has to fit.
-/

namespace JudgmentAggregation

/-- Lists the choices of `n` of some judgments, and those of one number from each of some lists. -/
structure Lister where
  choose : (judgments : List (Nat × Bool)) → (n : Nat) → Result (List (List (Nat × Bool)))
  product : (domains : List (List Nat)) → List (List Nat)

namespace Lister

/-- The sublists of a given length. -/
def sublistsOfLength {α : Type} : (n : Nat) → List α → List (List α)
  | 0, _ => [[]]
  | _ + 1, [] => []
  | n + 1, x :: xs =>
    if xs.length < n then []
    else (sublistsOfLength n xs).map (x :: ·) ++ sublistsOfLength (n + 1) xs

/-- The choices of one member of each list. -/
def sections {α : Type} : List (List α) → List (List α)
  | [] => [[]]
  | as :: ass =>
    let rest := sections ass
    as.flatMap fun a => rest.map (a :: ·)

/-- The lister that goes from the first judgments and numbers to the last ones. -/
def standard : Lister where
  choose ls n := do
    let _ ← Count.factorial ls.length
    return sublistsOfLength n ls
  product := sections

end Lister

end JudgmentAggregation
