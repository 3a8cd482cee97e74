import Mathlib.Data.DFinsupp.WellFounded
import Mathlib.Data.Finsupp.MonomialOrder
import Mathlib.Data.Fintype.Pi
import Mathlib.Data.Fintype.Sets

namespace PolyCore

/-!
# Monomials

A monomial is the vector of its variables' exponents.  The source keeps exponents
in 32 bits; here they are natural numbers.  Two monomials of one polynomial always
have the same number of variables, which the type records.
-/

/-- `x_0^e_0 * x_1^e_1 * ...` with a dense exponent vector. -/
@[ext] structure Monomial (numVars : ℕ) where
  exponent : Fin numVars → ℕ
deriving DecidableEq

namespace Monomial

variable {numVars : ℕ}

/-- The monomial with every exponent zero. -/
instance : One (Monomial numVars) where
  one := ⟨fun _ => 0⟩

/-- `operator*`: exponents are added. -/
instance : Mul (Monomial numVars) where
  mul left right := ⟨fun index => left.exponent index + right.exponent index⟩

/-- `divides`: every exponent is at most the other's. -/
def Divides
    (left right : Monomial numVars) :
    Prop :=
  ∀ index, left.exponent index ≤ right.exponent index

instance (left right : Monomial numVars) :
    Decidable (left.Divides right) :=
  inferInstanceAs (Decidable (∀ index, left.exponent index ≤ right.exponent index))

/-- `operator/`, on a monomial that `right` divides: exponents are subtracted. -/
instance : Div (Monomial numVars) where
  div left right := ⟨fun index => left.exponent index - right.exponent index⟩

@[simp] theorem exponent_one
    (index : Fin numVars) :
    (1 : Monomial numVars).exponent index = 0 :=
  rfl

@[simp] theorem exponent_mul
    (left right : Monomial numVars)
    (index : Fin numVars) :
    (left * right).exponent index = left.exponent index + right.exponent index :=
  rfl

@[simp] theorem exponent_div
    (left right : Monomial numVars)
    (index : Fin numVars) :
    (left / right).exponent index = left.exponent index - right.exponent index :=
  rfl

/-- Dividing out a divisor and multiplying it back gives the monomial. -/
theorem div_mul_cancel
    {left right : Monomial numVars}
    (divides : right.Divides left) :
    left / right * right = left := by
  ext index
  exact Nat.sub_add_cancel (divides index)

/-- `operator<=>`: the first exponents that differ decide. -/
instance : LT (Monomial numVars) where
  lt left right :=
    ∃ index,
      (∀ earlier, earlier < index →
        left.exponent earlier = right.exponent earlier) ∧
      left.exponent index < right.exponent index

instance (left right : Monomial numVars) :
    Decidable (left < right) :=
  inferInstanceAs
    (Decidable
      (∃ index,
        (∀ earlier, earlier < index →
          left.exponent earlier = right.exponent earlier) ∧
        left.exponent index < right.exponent index))

/-- The order is the lexicographic order of exponent vectors. -/
theorem lt_iff_toLex
    {left right : Monomial numVars} :
    left < right ↔ toLex left.exponent < toLex right.exponent :=
  Iff.rfl

/-- A monomial is its exponent vector. -/
theorem toLex_exponent_injective :
    Function.Injective (fun monomial : Monomial numVars => toLex monomial.exponent) :=
  fun _ _ same => Monomial.ext same

instance : LE (Monomial numVars) where
  le left right := left = right ∨ left < right

instance (left right : Monomial numVars) :
    Decidable (left ≤ right) :=
  inferInstanceAs (Decidable (left = right ∨ left < right))

theorem le_iff_toLex
    {left right : Monomial numVars} :
    left ≤ right ↔ toLex left.exponent ≤ toLex right.exponent := by
  constructor
  · intro atMost
    rcases atMost with same | less
    · rw [same]
    · exact le_of_lt less
  · intro atMost
    rcases eq_or_lt_of_le atMost with same | less
    · exact Or.inl (toLex_exponent_injective same)
    · exact Or.inr less

instance : LinearOrder (Monomial numVars) where
  le_refl _ := Or.inl rfl
  le_trans _ _ _ first second :=
    le_iff_toLex.mpr (le_trans (le_iff_toLex.mp first) (le_iff_toLex.mp second))
  lt_iff_le_not_ge _ _ := by
    rw [lt_iff_toLex, le_iff_toLex, le_iff_toLex]
    exact lt_iff_le_not_ge
  le_antisymm _ _ first second :=
    toLex_exponent_injective
      (le_antisymm (le_iff_toLex.mp first) (le_iff_toLex.mp second))
  le_total left right := by
    rw [le_iff_toLex, le_iff_toLex]
    exact le_total _ _
  toDecidableLE := inferInstance
  toDecidableEq := inferInstance
  toDecidableLT := inferInstance

/-- There is no infinite descent among monomials. -/
instance : WellFoundedLT (Monomial numVars) where
  wf :=
    InvImage.wf
      (fun monomial : Monomial numVars => toLex monomial.exponent)
      wellFounded_lt

/-- The exponent vector as the index of a coefficient. -/
noncomputable def toFinsupp
    (monomial : Monomial numVars) :
    Fin numVars →₀ ℕ :=
  Finsupp.equivFunOnFinite.symm monomial.exponent

@[simp] theorem toFinsupp_apply
    (monomial : Monomial numVars)
    (index : Fin numVars) :
    monomial.toFinsupp index = monomial.exponent index :=
  rfl

@[simp] theorem toFinsupp_one :
    (1 : Monomial numVars).toFinsupp = 0 := by
  ext index
  rfl

@[simp] theorem toFinsupp_mul
    (left right : Monomial numVars) :
    (left * right).toFinsupp = left.toFinsupp + right.toFinsupp := by
  ext index
  rfl

theorem toFinsupp_injective :
    Function.Injective (toFinsupp : Monomial numVars → Fin numVars →₀ ℕ) := by
  intro left right same
  ext index
  exact DFunLike.congr_fun same index

@[simp] theorem toFinsupp_inj
    {left right : Monomial numVars} :
    left.toFinsupp = right.toFinsupp ↔ left = right :=
  toFinsupp_injective.eq_iff

/-- Every exponent vector is a monomial's. -/
theorem exists_toFinsupp_eq
    (exponents : Fin numVars →₀ ℕ) :
    ∃ monomial : Monomial numVars, monomial.toFinsupp = exponents :=
  ⟨⟨exponents⟩, by ext index; rfl⟩

open MonomialOrder in
/-- The order of monomials is the lexicographic monomial order. -/
theorem toFinsupp_le_iff
    {left right : Monomial numVars} :
    (left.toFinsupp ≼[lex] right.toFinsupp) ↔ left ≤ right := by
  rw [← not_lt, ← not_lt]
  exact Iff.rfl

end Monomial

end PolyCore
