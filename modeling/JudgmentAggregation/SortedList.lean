/-!
# Finite sets and maps as sorted lists

A finite set over an ordered type is the strictly increasing list of its elements, and a finite
map is the list of its pairs in strictly increasing order of keys. Sets with the same elements
are then equal as lists, and a listing of the set in increasing order is the set itself.

`mem_insert` and `sorted_insert` say that `insert` adds one element and keeps the order;
`sorted_put` and `get?_put` say the same of `put` on maps.
-/

namespace JudgmentAggregation

namespace SortedList

universe u v

variable {α : Type u} {β : Type v} [Ord α]

/-- A list is **sorted** when it is strictly increasing. -/
def Sorted (as : List α) : Prop :=
  as.Pairwise fun a b => compare a b = .lt

/-- The set with one more element. -/
def insert (a : α) : List α → List α
  | [] => [a]
  | b :: bs =>
    match compare a b with
    | .lt => a :: b :: bs
    | .eq => b :: bs
    | .gt => b :: insert a bs

/-- The union of a set with the elements of a list. -/
def insertAll (as : List α) (s : List α) : List α :=
  as.foldl (fun s a => insert a s) s

/-- The set of the elements of a list. -/
def ofList (as : List α) : List α :=
  insertAll as []

/-- The map that sends `k` to `b` and any other key where it went before. -/
def put (k : α) (b : β) : List (α × β) → List (α × β)
  | [] => [(k, b)]
  | (k', b') :: s =>
    match compare k k' with
    | .lt => (k, b) :: (k', b') :: s
    | .eq => (k, b) :: s
    | .gt => (k', b') :: put k b s

/-- The value of a key, if it has one. -/
def get? (k : α) : List (α × β) → Option β
  | [] => none
  | (k', b) :: s => if compare k k' == .eq then some b else get? k s

/-- The map of a list of pairs, in which a later pair replaces an earlier one of the same key. -/
def ofPairs (ps : List (α × β)) : List (α × β) :=
  ps.foldl (fun s p => put p.1 p.2 s) []

/-! ### Membership and order -/

variable [Std.TransOrd α] [Std.LawfulEqOrd α]

omit [Std.TransOrd α] in
theorem mem_insert {a x : α} {s : List α} : x ∈ insert a s ↔ x = a ∨ x ∈ s := by
  induction s with
  | nil => simp [insert]
  | cons b bs ih =>
    simp only [insert]
    split
    · simp
    · next h => have := Std.LawfulEqOrd.eq_of_compare h; simp [this]
    · simp [ih, or_left_comm]

theorem sorted_insert {a : α} {s : List α} (h : Sorted s) : Sorted (insert a s) := by
  induction s with
  | nil => exact List.pairwise_singleton _ _
  | cons b bs ih =>
    have hb : ∀ x ∈ bs, compare b x = .lt := (List.pairwise_cons.1 h).1
    simp only [insert]
    split
    · next hab =>
      exact List.pairwise_cons.2 ⟨fun x hx => by
        rcases List.mem_cons.1 hx with rfl | hx
        · exact hab
        · exact Std.TransCmp.lt_trans hab (hb x hx), h⟩
    · exact h
    · next hab =>
      refine List.pairwise_cons.2 ⟨fun x hx => ?_, ih (List.pairwise_cons.1 h).2⟩
      rcases mem_insert.1 hx with rfl | hx
      · exact Std.OrientedCmp.lt_of_gt hab
      · exact hb x hx

omit [Std.TransOrd α] in
theorem mem_insertAll {x : α} {as s : List α} : x ∈ insertAll as s ↔ x ∈ as ∨ x ∈ s := by
  induction as generalizing s with
  | nil => simp [insertAll]
  | cons a as ih =>
    have : insertAll (a :: as) s = insertAll as (insert a s) := rfl
    rw [this, ih, mem_insert, List.mem_cons]
    exact ⟨by rintro (h | h | h) <;> simp [h], by rintro ((h | h) | h) <;> simp [h]⟩

theorem sorted_insertAll {as s : List α} (h : Sorted s) : Sorted (insertAll as s) := by
  induction as generalizing s with
  | nil => exact h
  | cons a as ih => exact ih (sorted_insert h)

omit [Std.TransOrd α] in
theorem mem_ofList {x : α} {as : List α} : x ∈ ofList as ↔ x ∈ as := by
  simp [ofList, mem_insertAll]

theorem sorted_ofList (as : List α) : Sorted (ofList as) :=
  sorted_insertAll List.Pairwise.nil

omit [Std.TransOrd α] in
theorem mem_keys_put {k x : α} {b : β} {s : List (α × β)} :
    x ∈ (put k b s).map Prod.fst ↔ x = k ∨ x ∈ s.map Prod.fst := by
  induction s with
  | nil => simp [put]
  | cons p s ih =>
    obtain ⟨k', b'⟩ := p
    simp only [put]
    split
    · simp
    · next h => have := Std.LawfulEqOrd.eq_of_compare h; simp [this]
    · rw [List.map_cons, List.mem_cons, ih, List.map_cons, List.mem_cons, or_left_comm]

theorem sorted_put {k : α} {b : β} {s : List (α × β)} (h : Sorted (s.map Prod.fst)) :
    Sorted ((put k b s).map Prod.fst) := by
  induction s with
  | nil => exact List.pairwise_singleton _ _
  | cons p s ih =>
    obtain ⟨k', b'⟩ := p
    have hk : ∀ x ∈ s.map Prod.fst, compare k' x = .lt := (List.pairwise_cons.1 h).1
    simp only [put]
    split
    · next hc =>
      exact List.pairwise_cons.2 ⟨fun x hx => by
        rcases List.mem_cons.1 hx with rfl | hx
        · exact hc
        · exact Std.TransCmp.lt_trans hc (hk x hx), h⟩
    · next hc => have := Std.LawfulEqOrd.eq_of_compare hc; subst this; exact h
    · next hc =>
      refine List.pairwise_cons.2 ⟨fun x hx => ?_, ih (List.pairwise_cons.1 h).2⟩
      rcases mem_keys_put.1 hx with rfl | hx
      · exact Std.OrientedCmp.lt_of_gt hc
      · exact hk x hx

theorem get?_put {k x : α} {b : β} {s : List (α × β)} :
    get? x (put k b s) = if compare x k == .eq then some b else get? x s := by
  induction s with
  | nil => rfl
  | cons p s ih =>
    obtain ⟨k', b'⟩ := p
    simp only [put]
    split
    · rfl
    · next h =>
      have := Std.LawfulEqOrd.eq_of_compare h
      subst this
      simp only [get?]
      split <;> rfl
    · next h =>
      simp only [get?, ih]
      by_cases hx : compare x k' = .eq
      · have := Std.LawfulEqOrd.eq_of_compare hx
        subst this
        have : compare x k = .lt := Std.OrientedCmp.lt_of_gt h
        simp [this]
      · simp [hx]

theorem sorted_ofPairs (ps : List (α × β)) : Sorted ((ofPairs ps).map Prod.fst) := by
  suffices h : ∀ s : List (α × β), Sorted (s.map Prod.fst) →
      Sorted ((ps.foldl (fun s p => put p.1 p.2 s) s).map Prod.fst) from
    h [] List.Pairwise.nil
  induction ps with
  | nil => exact fun _ h => h
  | cons p ps ih => exact fun s h => ih _ (sorted_put h)

end SortedList

end JudgmentAggregation
