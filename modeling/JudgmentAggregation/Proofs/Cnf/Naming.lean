import JudgmentAggregation.Cnf.Converter
import JudgmentAggregation.Proofs.Formula.Basic
import JudgmentAggregation.Proofs.ListFacts
import Std.Data.String.ToNat

/-!
# The names that a converter gives

A converter is **orderly** when the formulas it has named are distinct and the `i`-th of them has
the stem with the number `i` as its name. Then different formulas have different names
(`Converter.Orderly.eq_of_nameOf`), so that a valuation of the other variables has one extension to
the names under which each of them has the value of its formula: `Converter.extend`.

A converter that has named more formulas **extends** another one: names are never changed.
-/

namespace JudgmentAggregation

namespace Converter

open ListFacts

/-- The name of a formula, if it has been given one. -/
def nameOf? (c : Converter) (f : Formula) : Option String :=
  c.names.lookup f

/-- An **auxiliary variable** of a stem is the stem with a number. -/
def Auxiliary (stem v : String) : Prop :=
  ∃ i : Nat, v = stem ++ toString i

/-- The formulas named are distinct, and their names are the stem with the numbers 0, 1, … -/
def Numbered (stem : String) : List (Formula × String) → Prop
  | [] => True
  | (f, n) :: names =>
    n = stem ++ toString names.length ∧ names.lookup f = none ∧ Numbered stem names

/-- A converter is **orderly** when its names are numbered. -/
def Orderly (c : Converter) : Prop :=
  Numbered c.stem c.names

/-- A converter **extends** another one when it has the same stem and keeps all the names. -/
structure Extends (c c' : Converter) : Prop where
  stem_eq : c'.stem = c.stem
  nameOf : ∀ f n, c.nameOf? f = some n → c'.nameOf? f = some n

variable {c c' c'' : Converter} {f g : Formula} {n stem v : String} {A : Valuation String}
  {names : List (Formula × String)}

theorem Extends.refl (c : Converter) : c.Extends c :=
  ⟨rfl, fun _ _ h => h⟩

theorem Extends.trans (h : c.Extends c') (h' : c'.Extends c'') : c.Extends c'' :=
  ⟨h'.stem_eq.trans h.stem_eq, fun f n hn => h'.nameOf f n (h.nameOf f n hn)⟩

/-- Different numbers make different names. -/
theorem name_injective {i j : Nat} (h : stem ++ toString i = stem ++ toString j) : i = j := by
  have : (stem ++ toString i).toList = (stem ++ toString j).toList := by rw [h]
  rw [String.toList_append, String.toList_append, List.append_cancel_left_eq,
    String.toList_inj] at this
  exact Nat.repr_injective this

/-- A variable that does not start with an underscore is not auxiliary. -/
theorem not_auxiliary {word : String} (hv : v.toList.head? ≠ some '_') :
    ¬ Auxiliary ("_" ++ word) v := by
  rintro ⟨i, rfl⟩
  simp at hv

/-! ### Orderly converters -/

/-- A name has the number of an entry of the list. -/
theorem Numbered.lt_length (h : Numbered stem names) (hf : names.lookup f = some n) :
    ∃ i < names.length, n = stem ++ toString i := by
  induction names with
  | nil => simp at hf
  | cons p names ih =>
    obtain ⟨g, m⟩ := p
    obtain ⟨hm, -, h⟩ := h
    obtain ⟨-, hn⟩ | ⟨-, hf⟩ := lookup_cons_eq_some hf
    · exact ⟨names.length, by simp, hn.trans hm⟩
    · obtain ⟨i, hi, hn⟩ := ih h hf
      exact ⟨i, by rw [List.length_cons]; omega, hn⟩

/-- No two formulas have the same name. -/
theorem Numbered.eq_of_lookup (h : Numbered stem names) (hf : names.lookup f = some n)
    (hg : names.lookup g = some n) : f = g := by
  induction names with
  | nil => simp at hf
  | cons p names ih =>
    obtain ⟨k, m⟩ := p
    obtain ⟨hm, -, h⟩ := h
    -- The first name has the greatest number, so no other formula shares it.
    have first : ∀ {k'}, names.lookup k' = some m → False := fun hk' => by
      obtain ⟨i, hi, rfl⟩ := h.lt_length hk'
      have := name_injective hm
      omega
    obtain ⟨hfk, hfn⟩ | ⟨-, hf'⟩ := lookup_cons_eq_some hf <;>
      obtain ⟨hgk, hgn⟩ | ⟨-, hg'⟩ := lookup_cons_eq_some hg
    · rw [hfk, hgk]
    · exact (first (hfn ▸ hg')).elim
    · exact (first (hgn ▸ hf')).elim
    · exact ih h hf' hg'

/-- Every entry of the list is found. -/
theorem Numbered.lookup_of_mem (h : Numbered stem names) (hp : (f, n) ∈ names) :
    names.lookup f = some n := by
  induction names with
  | nil => simp at hp
  | cons p names ih =>
    obtain ⟨g, m⟩ := p
    obtain ⟨-, hg, h⟩ := h
    rcases List.mem_cons.1 hp with hp | hp
    · rw [← hp, List.lookup_cons_self]
    · exact lookup_cons_of_lookup hg (ih h hp)

/-- Different formulas have different names. -/
theorem Orderly.eq_of_nameOf (h : c.Orderly) (hf : c.nameOf? f = some n)
    (hg : c.nameOf? g = some n) : f = g :=
  Numbered.eq_of_lookup h hf hg

/-- The names that a converter has given are of its own kind. -/
theorem Orderly.auxiliary (h : c.Orderly) (hf : c.nameOf? f = some n) : Auxiliary c.stem n := by
  obtain ⟨i, -, hn⟩ := Numbered.lt_length h hf
  exact ⟨i, hn⟩

/-- A converter is orderly at the start. -/
theorem orderly_ofNamespace (word : String) : (ofNamespace word).Orderly :=
  trivial

/-- A formula that is found by a name has that name. -/
theorem Orderly.nameOf_of_find? (h : c.Orderly) {p : Formula × String}
    (hp : c.names.find? (fun p => p.2 == v) = some p) : c.nameOf? p.1 = some v := by
  have hv : p.2 = v := by simpa using List.find?_some hp
  rw [← hv]
  exact Numbered.lookup_of_mem h (List.mem_of_find?_eq_some hp)

/-- A converter that gives a name stays orderly and keeps all its names. -/
theorem name_spec (h : c.Orderly) (f : Formula) :
    (c.name f).2.Orderly ∧ c.Extends (c.name f).2 ∧ (c.name f).2.nameOf? f = some (c.name f).1 := by
  rw [name]
  cases hf : c.names.lookup f with
  | some n => exact ⟨h, .refl c, hf⟩
  | none =>
    exact ⟨⟨rfl, hf, h⟩, ⟨rfl, fun g n hg => lookup_cons_of_lookup hf hg⟩, List.lookup_cons_self⟩

/-! ### Values of the names -/

/-- The valuation that gives each name the value of its formula and any other variable its own. -/
def extend (c : Converter) (A : Valuation String) : Valuation String := fun v =>
  match c.names.find? fun p => p.2 == v with
  | some p => p.1.eval A
  | none => A v

/-- The extension to the names gives a name the value of its formula. -/
theorem extend_name (h : c.Orderly) (hf : c.nameOf? f = some n) (A : Valuation String) :
    c.extend A n = f.eval A := by
  rw [extend]
  cases hn : c.names.find? fun p => p.2 == n with
  | none =>
    have hmem : (f, n) ∈ c.names := mem_of_lookup hf
    simpa using List.find?_eq_none.1 hn _ hmem
  | some p => exact congrArg (Formula.eval A) (h.eq_of_nameOf (h.nameOf_of_find? hn) hf)

/-- The extension to the names leaves all other variables as they are. -/
theorem extend_of_not_auxiliary (h : c.Orderly) (hv : ¬ Auxiliary c.stem v) (A : Valuation String) :
    c.extend A v = A v := by
  rw [extend]
  cases hn : c.names.find? fun p => p.2 == v with
  | none => rfl
  | some p => exact (hv (h.auxiliary (h.nameOf_of_find? hn))).elim

end Converter

end JudgmentAggregation
